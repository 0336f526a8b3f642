import ClassAssembler.Proofs.Build.FinallyCopies
import ClassAssembler.Proofs.Build.SwitchKeys
import ClassAssembler.Proofs.Layout.Positions

/-!
# Constructors that initialize their object

A constructor must call a constructor of its class or its super class on the object.
-/

namespace ClassAssembler

open List Body TryDraft Build

namespace Body

/-- An operation calls a constructor of the class or the super class on the object under
construction. -/
def InitCall (b : Body) (op : Operation) : Prop :=
  ∃ constructor args, op = .simple (.insns [.invoke .special constructor]) (⟨0, []⟩ :: args) none ∧
    constructor.isConstructor ∧
    (constructor.owner = b.method.owner ∨ constructor.owner = b.superClass)

def InitIn (b : Body) (s : Nat) : Prop :=
  ∃ t op, b.Region s t ∧ op ∈ b.operations t ∧ b.InitCall op

def initNoted (b : Body) : Bool := b.init.any InitState.called

/-- If a constructor call was noted, it is in the region of one of the scopes. -/
structure Marked (L : List Nat) (b : Body) : Prop where
  bound : ∀ s ∈ L, s < b.scopes.size
  noted : b.initNoted → ∃ s ∈ L, b.InitIn s

variable {b b' : Body} {s t : Nat} {L L' : List Nat} {mayInit : Bool}

theorem Region.mono (h : ∀ s op, op ∈ b.operations s → op ∈ b'.operations s)
    (hr : b.Region s t) : b'.Region s t := by
  induction hr with
  | refl => exact .refl
  | step _ hc ih =>
    obtain ⟨op, hop, hc⟩ := mem_flatMap.mp hc
    exact .step ih (mem_owned (h _ op hop) hc)

theorem InitIn.mono (hs : b.InitIn s) (h : ∀ s op, op ∈ b.operations s → op ∈ b'.operations s)
    (hmethod : b'.method = b.method) (hsuper : b'.superClass = b.superClass) : b'.InitIn s := by
  obtain ⟨t, op, hr, hop, constructor, args, heq, hc, howner⟩ := hs
  refine ⟨t, op, hr.mono h, h t op hop, constructor, args, heq, hc, ?_⟩
  rw [hmethod, hsuper]
  exact howner

structure SameHead (b b' : Body) : Prop where
  method : b'.method = b.method
  superClass : b'.superClass = b.superClass
  settings : b'.settings = b.settings
  hasReceiver : b'.hasReceiver = b.hasReceiver
  init : b'.init.isSome = b.init.isSome

theorem SameHead.trans {b'' : Body} (h : b.SameHead b') (h' : b'.SameHead b'') : b.SameHead b'' :=
  ⟨h'.1.trans h.1, h'.2.trans h.2, h'.3.trans h.3, h'.4.trans h.4, h'.5.trans h.5⟩

theorem Steps.sameHead (h : b.Steps mayInit b') : b.SameHead b' := by
  refine h.relates (R := SameHead) (fun _ => ⟨rfl, rfl, rfl, rfl, rfl⟩) (fun h h' => h.trans h')
    fun hstep => ?_
  cases hstep with
  | earlyField name hinit | forgetField called name hinit =>
    exact ⟨rfl, rfl, rfl, rfl, by rw [hinit]; rfl⟩
  | callInit called hmay hinit => exact ⟨rfl, rfl, rfl, rfl, by rw [hinit]; rfl⟩
  | _ => exact ⟨rfl, rfl, rfl, rfl, rfl⟩

theorem Steps.initIn (h : b.Steps mayInit b') (hs : b.InitIn s) : b'.InitIn s :=
  hs.mono h.operations.2 h.sameHead.method h.sameHead.superClass

theorem Steps.initNoted (h : b.Steps false b') : b'.initNoted = b.initNoted := by
  refine h.relates (R := fun b b' => b'.initNoted = b.initNoted) (fun _ => rfl)
    (fun h h' => h'.trans h) fun hstep => ?_
  cases hstep with
  | earlyField name hinit =>
    rw [Body.initNoted, Body.initNoted, hinit]
    rfl
  | forgetField called name hinit =>
    rw [Body.initNoted, Body.initNoted, hinit]
    rfl
  | callInit called hmay => cases hmay
  | _ => rfl

/-- A call in a scope that an operation holds is one in the scope of the operation. -/
theorem InitIn.hold {here : Nat} {op : Operation} (hs : (b.push here op).InitIn s)
    (hhere : here < b.scopes.size) (hheld : s ∈ op.owned) : (b.push here op).InitIn here := by
  obtain ⟨t, op', hr, hop, hcall⟩ := hs
  have hpushed : op ∈ (b.push here op).operations here := by
    rw [operations_push_self _ _ _ hhere]
    exact mem_append_right _ mem_cons_self
  exact ⟨t, op', (Region.of_owned (mem_owned hpushed hheld)).trans hr, hop, hcall⟩

theorem InitIn.push (hs : b.InitIn s) (here : Nat) (op : Operation) : (b.push here op).InitIn s :=
  hs.mono (fun _ _ => mem_operations_push) rfl rfl

namespace Marked

theorem steps (h : b.Marked L) (hs : b.Steps false b') : b'.Marked L := by
  refine ⟨fun s hmem => Nat.lt_of_lt_of_le (h.bound s hmem) hs.operations.1, fun hn => ?_⟩
  rw [hs.initNoted] at hn
  obtain ⟨s, hmem, hin⟩ := h.noted hn
  exact ⟨s, hmem, hs.initIn hin⟩

theorem congr {L' : List Nat} (h : b.Marked L) (hL : ∀ s, s ∈ L ↔ s ∈ L') : b.Marked L' := by
  refine ⟨fun s hs => h.bound s ((hL s).mpr hs), fun hn => ?_⟩
  obtain ⟨s, hs, hin⟩ := h.noted hn
  exact ⟨s, (hL s).mp hs, hin⟩

theorem openScope (h : b.Marked L) (parent : Option Nat) (kind : ScopeKind)
    (hs : b.Steps false (b.openScope parent kind).2) :
    (b.openScope parent kind).2.Marked (b.scopes.size :: L) := by
  have h' := h.steps hs
  refine ⟨fun s hmem => ?_, fun hn => ?_⟩
  · rcases mem_cons.mp hmem with rfl | hmem
    · rw [size_openScope]
      exact Nat.lt_succ_self _
    · exact h'.bound s hmem
  · obtain ⟨s, hmem, hin⟩ := h'.noted hn
    exact ⟨s, .tail _ hmem, hin⟩

theorem hold {here : Nat} {op : Operation} {H : List Nat} (h : b.Marked (H ++ L))
    (hhere : here ∈ L) (hheld : H ⊆ op.owned) : (b.push here op).Marked L := by
  refine ⟨fun s hmem => ?_, fun hn => ?_⟩
  · rw [size_push]
    exact h.bound s (mem_append_right _ hmem)
  obtain ⟨c, hmem, hin⟩ := h.noted hn
  rcases mem_append.mp hmem with hc | hc
  · exact ⟨here, hhere, (hin.push here op).hold (h.bound here (mem_append_right _ hhere))
      (hheld hc)⟩
  · exact ⟨c, hc, hin.push here op⟩

end Marked
end Body

def TryDraft.added (d : TryDraft) : List Nat :=
  (if d.stage = .fresh then [] else d.body.toList) ++ d.clauses.toList.map CatchClause.scope ++
    if d.stage = .finished then d.catchAll.toList else []

def TryDraft.Underway (d : TryDraft) : Prop := d.stage ≠ .fresh ∧ d.stage ≠ .finished

theorem TryDraft.Underway.of_mem {d : TryDraft} (h : d.stage ∈ [TryStage.body, TryStage.catches]) :
    d.Underway := by
  constructor <;> intro heq <;> rw [heq] at h <;> simp at h

def SwitchDraft.added (d : SwitchDraft) : List Nat := d.arms.toList.map Arm.scope

namespace Build

/-! ## Notes of calls -/

section

variable {σ δ α β : Type} {here : Nat} {L : List Nat}

/-- A program in which a noted call is in the region of a scope that is looked after. -/
def Marks (L : List Nat) (m : Build σ α) (L' : α → List Nat) : Prop :=
  Succeeds (fun w => w.body.Marked L) m fun a w => w.body.Marked (L' a)

namespace Marks

variable {m : Build σ α}

theorem bind {f : α → Build σ β} {L1 : α → List Nat} {L2 : β → List Nat}
    (hm : Marks L m L1) (hf : ∀ a, Marks (L1 a) (f a) L2) : Marks L (m >>= f) L2 :=
  Succeeds.bind hm hf

theorem quiet (hm : Stepwise false m) : Marks L m fun _ => L := by
  intro w a w' h hr
  have hs := hm w
  rw [after_of_ok hr] at hs
  exact h.steps hs

theorem openScope (parent : Nat) (kind : ScopeKind) :
    Marks L (openScope parent kind : Build σ Nat) fun c => c :: L := by
  intro w a w' h hr
  cases hr
  exact h.openScope _ _ (.one (.openScope w.body parent kind))

theorem hold {op : Operation} {H : List Nat} (hhere : here ∈ L) (hheld : H ⊆ op.owned) :
    Marks (H ++ L) (push here op : Build σ Unit) fun _ => L := by
  intro w a w' h hr
  cases hr
  exact h.hold hhere hheld

end Marks

theorem endsWith_invokeConstructor {w : Work σ} (constructor : MethodRef) (args : List Value) :
    EndsWith here w (invokeConstructor here constructor args) w.body.InitCall := by
  refine .find (.see _) fun init _ => .find (.see _) fun object hobject => ?_
  split
  · next object _ =>
    refine .find (.see _) fun owner howner => .find (.see _) fun superClass hsuper => ?_
    split
    · exact .bind fun _ _ h => nomatch h
    · next hconstructor =>
      have hindex : object.index = 0 := by
        rw [receiver?] at hobject
        split at hobject
        · cases hobject
          rfl
        · cases hobject
      refine .bind fun _ w1 _ => .find (.operandAsIs object) fun o ho => ?_
      refine .find (.arguments constructor args) fun rest _ => ?_
      intro _ _ hr
      cases hr
      refine ⟨_, _, rfl, constructor, rest, ?_, ?_⟩
      · obtain ⟨i, hi, hread, hvalue⟩ := ho
        obtain ⟨i', hi', hcoercion, _⟩ := hread.value
        rw [hvalue, hi] at hi'
        cases hi'
        have hnone : coercion i.type i.type = [] := if_pos rfl
        rw [show o = ⟨o.value, o.coercion⟩ from rfl, hvalue, hcoercion, hnone, hindex]
      · rw [← howner, ← hsuper]
        simpa [Decidable.or_iff_not_imp_left] using hconstructor
  · exact .fail _

/-- A call of a constructor is noted, and stands where it was made. -/
theorem marks_invokeConstructor (constructor : MethodRef) (args : List Value) (hhere : here ∈ L) :
    Marks L (invokeConstructor here constructor args : Build σ Unit) fun _ => L := by
  intro w a w' h hr
  have hs : w.body.Steps true (after (invokeConstructor here constructor args) w).body :=
    stepwise_invokeConstructor constructor args w
  rw [after_of_ok hr] at hs
  obtain ⟨b, op, hbody, constructor', rest, hop, hconstructor, howner⟩ :=
    endsWith_invokeConstructor constructor args a w' hr
  have hbound : ∀ s ∈ L, s < w'.body.scopes.size :=
    fun s hmem => Nat.lt_of_lt_of_le (h.bound s hmem) hs.operations.1
  refine ⟨hbound, fun _ => ⟨here, hhere, here, op, .refl, ?_, constructor', rest, hop,
    hconstructor, ?_⟩⟩
  · have hlt := hbound here hhere
    rw [hbody, size_push] at hlt
    rw [hbody, operations_push_self _ _ _ hlt]
    exact mem_append_right _ mem_cons_self
  · rw [hs.sameHead.method, hs.sameHead.superClass]
    exact howner

theorem Call.marks {m : Build σ α} {handles : List Handle} (h : Call σ here m handles)
    (hhere : here ∈ L) : Marks L m fun _ => L := by
  rcases h.stepwise_or_constructs with h | h
  · exact .quiet (h false)
  · cases h with
    | call constructor args => exact marks_invokeConstructor constructor args hhere

def MarksIn (here : Nat) (m : Build σ α) : Prop := ∀ L, here ∈ L → Marks L m fun _ => L

theorem MarksIn.follows : Follows (σ := σ) fun here P m Q =>
    ∀ L, here ∈ L → Marks (P ++ L) m fun a => Q a ++ L where
  bind hm hf L hhere := (hm L hhere).bind fun a => hf a L hhere
  quiet _ _ h _ _ := .quiet (h false)
  visit hx hm _ hhere :=
    hm _ (hx.elim (fun h => mem_append_right _ (h ▸ hhere)) (mem_append_left _))
  openScope _ _ _ _ _ := (Marks.openScope _ _).weaken (fun _ h => h) fun _ _ h =>
    h.congr fun _ => by simp [or_left_comm]
  hold _ h _ hhere := .hold hhere h

/-! ## Parts of statements -/

/-- The scopes of a draft are those of one before and more, and all of them are open. -/
def Gathered (parts : δ → List Nat) (before : List Nat) (d : δ) (b : Body) : Prop :=
  before ⊆ parts d ∧ ∀ s ∈ parts d, s < b.scopes.size

/-- A step that only adds to the parts of a statement, whether or not it fails. -/
def Gathering (parts : δ → List Nat) (m : Build (δ × σ) α) : Prop :=
  ∀ before, Triple (Gathered parts before) m (fun _ => Gathered parts before)
    (Gathered parts before)

/-- A program in which a noted call is in a part of the statement, or in a scope around it. -/
def MarksParts (parts : δ → List Nat) (m : Build (δ × σ) α) : Prop :=
  ∀ L, Succeeds (fun w => w.body.Marked (parts w.carried.1 ++ L)) m
    fun _ w => w.body.Marked (parts w.carried.1 ++ L)

def MarkedWith (d : δ) (L : List Nat) (w : Work (δ × σ)) : Prop := w.carried.1 = d ∧ w.body.Marked L

variable {parts : δ → List Nat} {m : Build (δ × σ) α} {block : Block σ}

theorem Gathered.mono {before : List Nat} {d : δ} {b b' : Body}
    (h : Gathered parts before d b) (hle : b.scopes.size ≤ b'.scopes.size) :
    Gathered parts before d b' := ⟨h.1, fun s hs => Nat.lt_of_lt_of_le (h.2 s hs) hle⟩

theorem Triple.stepwise {I : δ → Body → Prop} (hm : Stepwise true m) (hd : SameDraft m)
    (hI : ∀ d b b', I d b → b.scopes.size ≤ b'.scopes.size → I d b') :
    Triple I m (fun _ => I) I := by
  refine .of_after fun w h => ?_
  rw [hd w]
  exact hI _ _ _ h (hm w).operations.1

theorem Gathering.bind {f : α → Build (δ × σ) β}
    (hm : Gathering parts m) (hf : ∀ a, Gathering parts (f a)) : Gathering parts (m >>= f) :=
  fun before => (hm before).bind fun a => hf a before

theorem Gathering.stepwise (hm : Stepwise true m) (hd : SameDraft m) : Gathering parts m :=
  fun _ => .stepwise hm hd fun _ _ _ h hle => h.mono hle

theorem Gathering.after {mayInit : Bool}
    (hg : Gathering parts m) (hs : Stepwise mayInit m) {w : Work (δ × σ)}
    (h : w.body.Marked (parts w.carried.1 ++ L)) :
    parts w.carried.1 ⊆ parts (after m w).carried.1 ∧
      ∀ s ∈ parts (after m w).carried.1 ++ L, s < (after m w).body.scopes.size := by
  have hgathered := (hg (parts w.carried.1)).ends ⟨fun _ hs => hs, fun s hs =>
    h.bound s (mem_append_left _ hs)⟩
  refine ⟨hgathered.1, fun s hmem => ?_⟩
  rcases mem_append.mp hmem with hmem | hmem
  · exact hgathered.2 s hmem
  · exact Nat.lt_of_lt_of_le (h.bound s (mem_append_right _ hmem)) (hs w).operations.1

theorem Gathering.marksParts (hg : Gathering parts m)
    (hm : Stepwise false m) : MarksParts parts m := by
  intro L w a w' h hr
  obtain ⟨hparts, hbound⟩ := hg.after hm h
  have hs := hm w
  rw [after_of_ok hr] at hparts hbound hs
  refine ⟨hbound, fun hn => ?_⟩
  obtain ⟨s, hmem, hin⟩ := (h.steps hs).noted hn
  refine ⟨s, ?_, hin⟩
  rcases mem_append.mp hmem with hmem | hmem
  · exact mem_append_left _ (hparts hmem)
  · exact mem_append_right _ hmem

namespace MarkedWith

variable {d : δ}

theorem quiet {m : Build (δ × σ) α} (hm : Stepwise false m) (hd : SameDraft m) :
    Succeeds (MarkedWith d L) m fun _ => MarkedWith d L := by
  rintro w a w' ⟨hsame, h⟩ hr
  have hs := hm w
  have hsame' := hd w
  rw [after_of_ok hr] at hs hsame'
  exact ⟨hsame'.trans hsame, h.steps hs⟩

theorem openScope (parent : Nat) (kind : ScopeKind) :
    Succeeds (MarkedWith d L) (openScope parent kind : Build (δ × σ) Nat)
      fun c => MarkedWith d (c :: L) := by
  rintro w c w' ⟨hsame, h⟩ hr
  cases hr
  exact ⟨hsame, h.openScope _ _ (.one (.openScope w.body parent kind))⟩

theorem visit {m : Build σ α} {c : Nat} (hm : MarksIn c m) (hc : c ∈ L) :
    Succeeds (MarkedWith d L) (outside m) fun _ => MarkedWith d L := by
  rintro ⟨b, d', s⟩ a w' ⟨hsame, h⟩ hr
  obtain ⟨_, _, hrun, rfl⟩ := outside_eq_ok hr
  exact ⟨hsame, hm L hc ⟨b, s⟩ _ _ h hrun⟩

end MarkedWith

theorem MarksParts.fixing (h : ∀ L d, Succeeds (MarkedWith d (parts d ++ L)) m
    fun _ w => w.body.Marked (parts w.carried.1 ++ L)) : MarksParts parts m :=
  fun L w a w' hI hr => h L w.carried.1 w a w' ⟨rfl, hI⟩ hr

theorem sameDraft_placeholder : SameDraft (placeholder : Try σ Cleanup) :=
  SameDraft.bind (fun _ => rfl) fun _ => SameDraft.bind (.change _) fun _ =>
    SameDraft.bind (SameDraft.bind (fun _ => rfl) fun _ => SameDraft.bind (fun _ => rfl) fun _ =>
      SameDraft.bind (.change _) fun o => .of_finds (.ofOption _ o)) fun _ =>
    SameDraft.bind (fun _ => rfl) fun _ => fun _ => rfl

theorem marksParts_tryBody (hblock : ∀ c, MarksIn c (block c)) :
    MarksParts added (tryBody block) := by
  refine .fixing fun L d => .inStage_bind fun hstage => .draft_bind ?_
  have hfresh : d.stage = .fresh := mem_singleton.mp hstage
  refine (MarkedWith.openScope _ _).bind fun c => ?_
  refine (MarkedWith.visit (hblock c) mem_cons_self).bind fun _ => ?_
  refine Succeeds.bind (J := fun _ => MarkedWith { d with body := some c } (c :: (d.added ++ L)))
    (.redraft fun w h => ⟨by rw [h.1], h.2⟩) fun _ => ?_
  refine (MarkedWith.quiet .placeholder sameDraft_placeholder).bind fun exit => .redraft ?_
  rintro w ⟨hsame, h⟩
  rw [hsame]
  simpa [added, hfresh] using h

theorem marksParts_catchClause (caught : ClassName) {block : Nat → Value → Build σ Unit}
    (hblock : ∀ c v, MarksIn c (block c v)) : MarksParts added (catchClause caught block) := by
  refine .fixing fun L d => .inStage_bind fun hstage => .draft_bind ?_
  obtain ⟨hfresh, hfinished⟩ := TryDraft.Underway.of_mem hstage
  split
  · exact .fail_bind _ _
  refine .draft_bind ((MarkedWith.openScope _ _).bind fun c => ?_)
  refine (MarkedWith.quiet (.yield _ _ _) fun _ => rfl).bind fun v => ?_
  refine (MarkedWith.visit (hblock c v) mem_cons_self).bind fun _ => ?_
  refine (MarkedWith.quiet .placeholder sameDraft_placeholder).bind fun exit => .redraft ?_
  rintro w ⟨hsame, h⟩
  rw [hsame]
  refine h.congr fun s => ?_
  simp [added, hfresh, hfinished]
  grind

theorem triple_stage {I : TryDraft → Body → Prop} {call : TryCall} {allowed : List TryStage} :
    Triple I (inStage call allowed : Try σ Unit) (fun _ d b => I d b ∧ d.stage ∈ allowed) I :=
  triple_inStage (fun _ _ h => h) fun _ _ h hmem => ⟨h, hmem⟩

structure Entered (parts : δ → List Nat) (before : List Nat) (Q : δ → Prop) (c : Nat) (d : δ)
    (b : Body) : Prop where
  gathered : Gathered parts before d b
  known : Q d
  lt : c < b.scopes.size

section

variable {parts : δ → List Nat} {before : List Nat} {Q : δ → Prop} {E : δ → Body → Prop}

theorem Entered.openScope (frame : Nat) (kind : ScopeKind) :
    Triple (fun d b => Gathered parts before d b ∧ Q d)
      (openScope frame kind : Build (δ × σ) Nat) (Entered parts before Q) E := by
  refine .change fun d b h => ⟨h.1.mono ?_, h.2, ?_⟩
  · rw [size_openScope]
    exact Nat.le_succ _
  · rw [openScope_fst, size_openScope]
    exact Nat.lt_succ_self _

theorem Entered.stepwise {c : Nat} {m : Build (δ × σ) α} (hm : Stepwise true m) (hd : SameDraft m) :
    Triple (Entered parts before Q c) m (fun _ => Entered parts before Q c)
      (Gathered parts before) := by
  refine (Triple.stepwise hm hd fun d b b' h hle => ?_).weaken_error fun d b h => h.gathered
  exact ⟨h.gathered.mono hle, h.known, Nat.lt_of_lt_of_le h.lt hle⟩

theorem Entered.add {c : Nat} {d d' : δ} {b : Body} (h : Entered parts before Q c d b)
    (hparts : ∀ s, s ∈ parts d' ↔ s = c ∨ s ∈ parts d) : Gathered parts before d' b := by
  refine ⟨fun s hs => (hparts s).mpr (.inr (h.gathered.1 hs)), fun s hs => ?_⟩
  rcases (hparts s).mp hs with rfl | hs
  · exact h.lt
  · exact h.gathered.2 s hs

end

theorem gathering_tryBody (hblock : ∀ c, Stepwise true (block c)) :
    Gathering added (tryBody block) := by
  intro before
  refine triple_stage.bind fun _ => ?_
  refine Triple.bind (J := fun _ d b => Gathered added before d b ∧ d.stage = .fresh)
    (fun w h => ⟨h.1, mem_singleton.mp h.2⟩) fun frame => ?_
  refine (Entered.openScope frame .tryBody).bind fun c => ?_
  refine (Entered.stepwise (hblock c).outside (.outside _)).bind fun _ => ?_
  -- The body does not count before the exit from it is there.
  refine Triple.bind (J := fun _ => Entered added before
    (fun d => d.stage = .fresh ∧ d.body = some c) c) (.redraft fun d b h => ?_) fun _ => ?_
  · refine ⟨?_, ⟨h.known, rfl⟩, h.lt⟩
    simpa [Gathered, added, h.known] using h.gathered
  refine (Entered.stepwise .placeholder sameDraft_placeholder).bind fun exit =>
    .redraft fun d b h => h.add fun s => ?_
  simp [added, h.known.1, h.known.2]

theorem gathering_catchClause (caught : ClassName) {block : Nat → Value → Build σ Unit}
    (hblock : ∀ c v, Stepwise true (block c v)) : Gathering added (catchClause caught block) := by
  intro before
  refine triple_stage.bind fun _ => (Triple.draft _).bind fun known => ?_
  refine Triple.pre (I := fun d b => Gathered added before d b ∧ d.Underway)
    (fun d b h => ⟨h.1.1, .of_mem h.1.2⟩) ?_
  split
  · exact fun w h => h.1
  refine Triple.bind (J := fun _ d b => Gathered added before d b ∧ d.Underway)
    (fun w h => h) fun frame => ?_
  refine (Entered.openScope frame .catchClause).bind fun c => ?_
  refine (Entered.stepwise (.yield _ _ _) fun _ => rfl).bind fun v => ?_
  refine (Entered.stepwise (hblock c v).outside (.outside _)).bind fun _ => ?_
  refine (Entered.stepwise .placeholder sameDraft_placeholder).bind fun exit =>
    .redraft fun d b h => h.add fun s => ?_
  simp [added, h.known.1, h.known.2]
  grind

theorem sameDraft_ownFrame (call : TryCall) (f : TryFrame → α × TryFrame) :
    SameDraft (ownFrame call f : Try σ α) :=
  SameDraft.bind (fun _ => rfl) fun _ => SameDraft.bind (fun _ => rfl) fun _ =>
    SameDraft.bind (.change _) fun o => .of_finds (.ofOption _ o)

abbrev GatheredUnderway (before : List Nat) (d : TryDraft) (b : Body) : Prop :=
  Gathered added before d b ∧ d.Underway

theorem GatheredUnderway.stepwise {before : List Nat} {m : Try σ α} (hm : Stepwise true m)
    (hd : SameDraft m) :
    Triple (GatheredUnderway before) m (fun _ => GatheredUnderway before)
      (Gathered added before) :=
  (Triple.stepwise hm hd fun _ _ _ h hle => ⟨h.1.mono hle, h.2⟩).weaken_error fun _ _ h => h.1

theorem gathering_finallyBlock (hblock : ∀ c, Stepwise true (block c)) :
    Gathering added (finallyBlock block) := by
  intro before
  refine Triple.bind (J := fun _ => GatheredUnderway before) (triple_inStage (fun _ _ h => h)
    fun d b h hmem => ⟨h, .of_mem hmem⟩) fun _ => ?_
  refine (GatheredUnderway.stepwise (.ownFrame _ _) (sameDraft_ownFrame _ _)).bind fun copies => ?_
  refine Triple.bind (J := fun _ => GatheredUnderway before) (.alter fun d b h => h) fun _ => ?_
  refine Triple.bind (J := fun _ => GatheredUnderway before) (.redraft fun d b h => h) fun _ => ?_
  refine Triple.bind (J := fun _ => GatheredUnderway before) (.forM fun c _ =>
    GatheredUnderway.stepwise (hblock c).outside (.outside _)) fun _ => ?_
  refine Triple.bind (J := fun _ => GatheredUnderway before) (fun w h => h) fun frame => ?_
  refine (Entered.openScope frame .catchAll).bind fun handler => ?_
  refine (Entered.stepwise (.yield _ _ _) fun _ => rfl).bind fun exception => ?_
  refine (Entered.stepwise (.openScope _ _) (.change _)).bind fun copy => ?_
  refine (Entered.stepwise (hblock copy).outside (.outside _)).bind fun _ => ?_
  refine (Entered.stepwise (.push (by simp)) fun _ => rfl).bind fun _ => ?_
  refine (Entered.stepwise (.of_leaf (leaf_throwValue (anywhere _)))
    (sameDraft_throwValue _ _)).bind fun _ => ?_
  refine .redraft fun d b h => h.add fun s => ?_
  simp [added, h.known.1, h.known.2]
  grind

theorem WritesTry.gathering {σ α : Type} {m : Try σ α} :
    WritesTry σ α m → Gathering added m
  | .pure a => fun _ => .pure a
  | .fail e => fun _ => .fail e fun _ _ h => h
  | .carry _ => fun _ _ h => h
  | .attempt hm => fun before => (hm.gathering before).attempt
  | .bind hm hf => hm.gathering.bind fun a => (hf a).gathering
  | .body hblock => gathering_tryBody fun c => (hblock c).stepwise
  | .catchClause caught hblock => gathering_catchClause caught fun c v => (hblock c v).stepwise
  | .finallyBlock hblock => gathering_finallyBlock fun c => (hblock c).stepwise

theorem MarksIn.tryCatch {parts : Try σ Unit} (hparts : MarksParts added parts) :
    MarksIn here (tryCatch here parts) := by
  intro L hhere
  refine (Marks.quiet (.openScope here .tryFrame)).bind fun frame => ?_
  refine (Marks.quiet (.change fun b => .one (.tries b _ (b.nextTry + 1)))).bind fun id => ?_
  refine Succeeds.bind (J := fun (d : TryDraft) w => w.body.Marked (d.added ++ L))
    (Succeeds.withDraft (hparts L) { id, frame }) fun d => ?_
  cases hbody : d.body with
  | none => exact .fail _
  | some scope =>
    refine (Marks.quiet (.closeFrame d)).bind fun _ => .hold hhere fun s hs => ?_
    simp [added, hbody] at hs
    simp [Operation.owned, Operation.frames, Operation.nested, statement]
    grind

theorem gathering_takeLabel (label : CaseLabel) :
    Gathering SwitchDraft.added (takeLabel label : Switch σ CaseKey) := by
  refine .bind (.bind (.stepwise (.draft _) fun _ => rfl) fun kind =>
    .bind (.stepwise (.draft _) fun _ => rfl) fun table => ?_) fun key => ?_
  · split
    · exact fun _ => .pure _
    · exact fun _ => .pure _
    · split
      · exact fun _ => .fail _ fun _ _ h => h
      · exact .bind (.stepwise (.tableIndex _ _) (.change _)) fun _ _ => .pure _
    · exact fun _ => .fail _ fun _ _ h => h
  · refine .bind (fun _ w h => h) fun known => ?_
    split
    · exact fun _ w h => h
    · exact fun _ => .pure _

theorem gathering_takeLabels (labels : List CaseLabel) :
    Gathering SwitchDraft.added (labels.mapM takeLabel : Switch σ (List CaseKey)) :=
  fun before => .mapM (fun label => gathering_takeLabel label before) labels

theorem gathering_arm (kind : ScopeKind) (keys : List CaseKey) (isDefault : Bool)
    (hblock : ∀ c, Stepwise true (block c)) :
    Gathering SwitchDraft.added (arm kind keys isDefault block) := by
  intro before
  refine Triple.bind (J := fun _ d b => Gathered SwitchDraft.added before d b ∧ True)
    (fun w h => ⟨h, trivial⟩) fun frame => ?_
  refine (Entered.openScope frame kind).bind fun c => ?_
  refine (Entered.stepwise (hblock c).outside (.outside _)).bind fun _ =>
    .redraft fun d b h => h.add fun s => ?_
  simp [SwitchDraft.added]
  grind

theorem gathering_defaultCase (hblock : ∀ c, Stepwise true (block c)) :
    Gathering SwitchDraft.added (defaultCase block) := by
  refine .bind (.stepwise (.draft _) fun _ => rfl) fun known => ?_
  split
  · exact fun _ w h => h
  · exact .bind (fun _ => .redraft fun d b h => h) fun _ => gathering_arm _ _ _ hblock

theorem WritesSwitch.gathering {σ α : Type} {m : Switch σ α} :
    WritesSwitch σ α m → Gathering SwitchDraft.added m
  | .pure a => fun _ => .pure a
  | .fail e => fun _ => .fail e fun _ _ h => h
  | .carry _ => fun _ _ h => h
  | .attempt hm => fun before => (hm.gathering before).attempt
  | .bind hm hf => hm.gathering.bind fun a => (hf a).gathering
  | .case labels hblock => (gathering_takeLabels labels).bind fun keys =>
      gathering_arm _ keys false fun c => (hblock c).stepwise
  | .defaultCase hblock => gathering_defaultCase fun c => (hblock c).stepwise
  | .setFallthrough _ => fun _ => .redraft fun _ _ h => h
  | .target => .stepwise ((Stepwise.draft _).bind fun _ => .see _) fun _ => rfl

theorem marksParts_arm (kind : ScopeKind) (keys : List CaseKey) (isDefault : Bool)
    (hblock : ∀ c, MarksIn c (block c)) :
    MarksParts SwitchDraft.added (arm kind keys isDefault block) := by
  refine .fixing fun L d => .draft_bind ((MarkedWith.openScope _ _).bind fun c => ?_)
  refine (MarkedWith.visit (hblock c) mem_cons_self).bind fun _ => .redraft ?_
  rintro w ⟨hsame, h⟩
  rw [hsame]
  refine h.congr fun s => ?_
  simp [SwitchDraft.added]
  grind

theorem marksParts_case (labels : List CaseLabel)
    (hblock : ∀ c, MarksIn c (block c)) : MarksParts SwitchDraft.added (case labels block) :=
  fun L => Succeeds.bind ((gathering_takeLabels labels).marksParts (.mapM .takeLabel labels) L)
    fun keys => marksParts_arm _ keys false hblock L

theorem marksParts_defaultCase (hblock : ∀ c, MarksIn c (block c)) :
    MarksParts SwitchDraft.added (defaultCase block) := by
  intro L
  refine (Succeeds.draft _).bind fun known => ?_
  split
  · exact .fail_bind _ _
  · exact Succeeds.bind (.redraft fun w h => h) fun _ => marksParts_arm _ _ _ hblock L

namespace MarksIn

variable {arms : Switch σ Unit} (harms : MarksParts SwitchDraft.added arms)
include harms

theorem switchOn (kind : SwitchKind) (table : Option Nat) (selector : Operand) :
    MarksIn here (switchOn here kind table selector arms) := by
  intro L hhere
  refine (Marks.quiet (.openScope here .switchFrame)).bind fun frame => ?_
  refine Succeeds.bind (J := fun (d : SwitchDraft) w => w.body.Marked (d.added ++ L))
    (Succeeds.withDraft (harms L) { kind, table, frame }) fun d => Marks.hold hhere fun s hs => ?_
  exact .tail _ hs

theorem switchPlain (kind : SwitchKind) (type : FieldType) (selector : Value) :
    MarksIn here (operand here selector type >>= fun o => Build.switchOn here kind none o arms) :=
  fun L hhere => (Marks.quiet (.operand selector _)).bind fun _ => switchOn harms _ _ _ L hhere

theorem switchEnum (selector : Value) : MarksIn here (switchEnum here selector arms) := by
  intro L hhere
  refine (Marks.quiet (.typeOf selector)).bind fun type => ?_
  split
  · refine (Marks.quiet (.operandAsIs selector)).bind fun o => ?_
    refine (Marks.quiet fun w => (steps_tableFor false _ w).1).bind fun found => ?_
    exact switchOn harms _ _ _ L hhere
  · exact .quiet (.mismatch _ _)

end MarksIn

/-! ## Failed calls -/

/-- A program whose failure leaves no note behind, unless there is a call in one of the scopes. -/
def Honest {τ : Type} (scopes : τ → List Nat) (m : Build τ α) : Prop :=
  ∀ w e w', m w = .error e w' → w'.body.initNoted →
    w.body.initNoted ∨ ∃ s ∈ scopes w'.carried, w'.body.InitIn s

/-- A block that calls a constructor whenever it ends well. -/
def Calls (here : Nat) (m : Build σ Unit) : Prop :=
  ∀ w u w', here < w.body.scopes.size → m w = .ok u w' → w'.body.InitIn here

theorem Stepwise.honest {τ : Type} {scopes : τ → List Nat} {m : Build τ α} (hm : Stepwise false m) :
    Honest scopes m := by
  intro w e w' hr hn
  have hs := hm w
  rw [after_of_error hr] at hs
  rw [hs.initNoted] at hn
  exact .inl hn

/-- A failure that leaves no note behind can be ignored. -/
theorem Honest.marked {τ : Type} {scopes : τ → List Nat} {m : Build τ α} (hm : Honest scopes m)
    (hs : Stepwise true m) {w w' : Work τ} {e : Fault} (hr : m w = .error e w')
    (h : w.body.Marked L) {L' : List Nat} (hbound : ∀ s ∈ L', s < w'.body.scopes.size)
    (hL : L ⊆ L') (hscopes : scopes w'.carried ⊆ L') : w'.body.Marked L' := by
  have hs := hs w
  rw [after_of_error hr] at hs
  refine ⟨hbound, fun hn => ?_⟩
  rcases hm w e w' hr hn with hn | ⟨s, hmem, hin⟩
  · obtain ⟨s, hmem, hin⟩ := h.noted hn
    exact ⟨s, hL hmem, hs.initIn hin⟩
  · exact ⟨s, hscopes hmem, hin⟩

theorem MarksIn.attempt {m : Build σ α} (hm : MarksIn here m) (hs : Stepwise true m)
    (hhonest : Honest (fun _ => [here]) m) : MarksIn here (attempt m) := by
  intro L hhere w a w' h hr
  rcases attempt_eq_ok hr with ⟨a', hrun⟩ | ⟨e, hrun⟩
  · exact hm L hhere w a' _ h hrun
  · have hsize := (hs w).operations.1
    rw [after_of_error hrun] at hsize
    exact hhonest.marked hs hrun h (fun s hmem => Nat.lt_of_lt_of_le (h.bound s hmem) hsize)
      (fun _ hmem => hmem) fun s hmem => mem_singleton.mp hmem ▸ hhere

theorem MarksParts.attempt (hm : MarksParts parts m) (hs : Stepwise true m) (hg : Gathering parts m)
    (hhonest : Honest (fun carried => parts carried.1) m) : MarksParts parts (attempt m) := by
  intro L w a w' h hr
  rcases attempt_eq_ok hr with ⟨a', hrun⟩ | ⟨e, hrun⟩
  · exact hm L w a' _ h hrun
  · obtain ⟨hparts, hbound⟩ := hg.after hs h
    rw [after_of_error hrun] at hparts hbound
    exact hhonest.marked hs hrun h hbound (append_subset.mpr
      ⟨subset_append_of_subset_left _ hparts, subset_append_right ..⟩)
      (subset_append_left ..)

theorem Stepwise.succeeds {τ : Type} {I : Body → Prop} {m : Build τ α} (hm : Stepwise true m)
    (hI : ∀ b b', I b → b.Steps true b' → I b') :
    Succeeds (fun w => I w.body) m fun _ w => I w.body := by
  intro w a w' h hr
  have hs := hm w
  rw [after_of_ok hr] at hs
  exact hI _ _ h hs

theorem Succeeds.skip {τ : Type} {m : Build τ α} {f : α → Build τ β} {J : β → Work τ → Prop}
    (hf : ∀ a, Succeeds (fun _ => True) (f a) J) : Succeeds (fun _ => True) (m >>= f) J :=
  Succeeds.bind (J := fun _ _ => True) (fun _ _ _ _ _ => trivial) hf

theorem Calls.outside {c : Nat} {m : Build σ Unit} (hm : Calls c m) :
    Succeeds (fun w => c < w.body.scopes.size) (outside m : Build (δ × σ) Unit)
      fun _ w => w.body.InitIn c := by
  rintro ⟨b, d, s⟩ a w' hlt hr
  obtain ⟨_, _, hrun, rfl⟩ := outside_eq_ok hr
  exact hm ⟨b, s⟩ _ _ hlt hrun

/-- The handler of a finally block has a copy of it, so there is a call if each copy has one. -/
theorem succeeds_finallyBlock (hs : ∀ c, Stepwise true (block c))
    (hcalls : ∀ c, Calls c (block c)) :
    Succeeds (fun _ => True) (finallyBlock block)
      fun _ w => ∃ s ∈ w.carried.1.added, w.body.InitIn s := by
  have hsize : ∀ (c : Nat) (b b' : Body), c < b.scopes.size → b.Steps true b' →
      c < b'.scopes.size := fun c b b' hlt h => Nat.lt_of_lt_of_le hlt h.operations.1
  -- Nothing need be known before the handler is opened.
  refine .skip fun _ => .skip fun copies => .skip fun _ => .skip fun _ => .skip fun _ =>
    .skip fun frame => ?_
  refine Succeeds.bind (J := fun handler w => handler < w.body.scopes.size)
    (.change fun w _ => ?_) fun handler => ?_
  · rw [openScope_fst, size_openScope]
    exact Nat.lt_succ_self _
  refine ((Stepwise.yield _ _ _).succeeds (hsize handler)).bind fun exception => ?_
  refine Succeeds.bind (J := fun copy w => handler < w.body.scopes.size ∧ copy < w.body.scopes.size)
    (.change fun w hlt => ?_) fun copy => ?_
  · rw [openScope_fst, size_openScope]
    exact ⟨Nat.lt_succ_of_lt hlt, Nat.lt_succ_self _⟩
  refine Succeeds.bind (J := fun _ w => handler < w.body.scopes.size ∧ w.body.InitIn copy)
    (fun w a w' h hr => ⟨(hs copy).outside.succeeds (hsize handler) w a w' h.1 hr,
      (hcalls copy).outside w a w' h.2 hr⟩) fun _ => ?_
  refine Succeeds.bind (J := fun _ w => w.body.InitIn handler) ?_ fun _ => ?_
  · rintro w a w' ⟨hlt, hin⟩ hr
    cases hr
    exact (hin.push handler _).hold hlt (by simp [Operation.owned, Operation.nested])
  refine ((Stepwise.of_leaf (leaf_throwValue (anywhere _))).succeeds fun b b' h hsteps =>
    hsteps.initIn h).bind fun _ => ?_
  exact .redraft fun w h => ⟨handler, by simp [added], h⟩

/-- The copy in the handler is attached, so one call in each copy is enough. -/
theorem marksParts_finallyBlock (hs : ∀ c, Stepwise true (block c))
    (hcalls : (∀ c, Stepwise false (block c)) ∨ ∀ c, Calls c (block c)) :
    MarksParts added (finallyBlock block) := by
  have hg := gathering_finallyBlock hs
  rcases hcalls with hquiet | hcalls
  · exact hg.marksParts (.finallyBlock hquiet)
  · intro L w a w' h hr
    obtain ⟨s, hmem, hin⟩ := succeeds_finallyBlock hs hcalls w a w' trivial hr
    have hbound := (hg.after (.finallyBlock hs) h).2
    rw [after_of_ok hr] at hbound
    exact ⟨hbound, fun _ => ⟨s, mem_append_left _ hmem, hin⟩⟩

end

/-! ## Programs that heed failures -/

mutual

/-- The programs that build into a scope, and heed the failures that leave a note behind. -/
inductive Heeds : (σ : Type) → (here : Nat) → (α : Type) → Build σ α → Prop
  | pure {σ here α} (a : α) : Heeds σ here α (pure a)
  | fail {σ here α} (e : Fault) : Heeds σ here α (fail e)
  | carry {σ here α} (f : σ → α × σ) : Heeds σ here α (carry f)
  | bind {σ here α β} {m : Build σ α} {f : α → Build σ β} :
      Heeds σ here α m → (∀ a, Heeds σ here β (f a)) → Heeds σ here β (m >>= f)
  | attempt {σ here α} {m : Build σ α} :
      Heeds σ here α m → Honest (fun _ => [here]) m → Heeds σ here (Except Fault α) (attempt m)
  | call {σ here α} {m : Build σ α} {handles : List Handle} :
      Call σ here m handles → Heeds σ here α m
  | ifThen {σ here} (cond : Value) {whenTrue : Block σ} :
      (∀ c, Heeds σ c Unit (whenTrue c)) → Heeds σ here Unit (ifThen here cond whenTrue)
  | ifElse {σ here} (cond : Value) {whenTrue whenFalse : Block σ} :
      (∀ c, Heeds σ c Unit (whenTrue c)) → (∀ c, Heeds σ c Unit (whenFalse c)) →
      Heeds σ here Unit (ifElse here cond whenTrue whenFalse)
  | block {σ here} {inner : Block σ} :
      (∀ c, Heeds σ c Unit (inner c)) → Heeds σ here Unit (block here inner)
  | whileLoop {σ here} {test : Nat → Build σ Value} {body : Block σ} :
      (∀ c, Heeds σ c Value (test c)) → (∀ c, Heeds σ c Unit (body c)) →
      Heeds σ here Unit (whileLoop here test body)
  | loop {σ here} {body : Block σ} :
      (∀ c, Heeds σ c Unit (body c)) → Heeds σ here Unit (loop here body)
  | forEachArray {σ here} (array : Value) {body : Nat → Value → Build σ Unit} :
      (∀ c v, Heeds σ c Unit (body c v)) → Heeds σ here Unit (forEachArray here array body)
  | forEachIterable {σ here} (iterable : Value) {body : Nat → Value → Build σ Unit} :
      (∀ c v, Heeds σ c Unit (body c v)) → Heeds σ here Unit (forEachIterable here iterable body)
  | tryCatch {σ here} {parts : Try σ Unit} :
      HeedsTry σ Unit parts → Heeds σ here Unit (tryCatch here parts)
  | switchInt {σ here} (selector : Value) {arms : Switch σ Unit} :
      HeedsSwitch σ Unit arms → Heeds σ here Unit (switchInt here selector arms)
  | switchString {σ here} (selector : Value) {arms : Switch σ Unit} :
      HeedsSwitch σ Unit arms → Heeds σ here Unit (switchString here selector arms)
  | switchEnum {σ here} (selector : Value) {arms : Switch σ Unit} :
      HeedsSwitch σ Unit arms → Heeds σ here Unit (switchEnum here selector arms)

/-- The programs that build the parts of a try statement. A finally block calls a constructor in
none of its copies, or in all. -/
inductive HeedsTry : (σ : Type) → (α : Type) → Try σ α → Prop
  | pure {σ α} (a : α) : HeedsTry σ α (pure a)
  | fail {σ α} (e : Fault) : HeedsTry σ α (fail e)
  | carry {σ α} (f : σ → α × σ) : HeedsTry σ α (outside (carry f))
  | bind {σ α β} {m : Try σ α} {f : α → Try σ β} :
      HeedsTry σ α m → (∀ a, HeedsTry σ β (f a)) → HeedsTry σ β (m >>= f)
  | attempt {σ α} {m : Try σ α} : HeedsTry σ α m → Honest (fun carried => carried.1.added) m →
      HeedsTry σ (Except Fault α) (attempt m)
  | body {σ} {block : Block σ} :
      (∀ c, Heeds σ c Unit (block c)) → HeedsTry σ Unit (tryBody block)
  | catchClause {σ} (caught : ClassName) {block : Nat → Value → Build σ Unit} :
      (∀ c v, Heeds σ c Unit (block c v)) → HeedsTry σ Unit (catchClause caught block)
  | finallyBlock {σ} {block : Block σ} : (∀ c, Writes σ c Unit (block c)) →
      (∀ c, Stepwise false (block c)) ∨ (∀ c, Calls c (block c)) →
      HeedsTry σ Unit (finallyBlock block)

inductive HeedsSwitch : (σ : Type) → (α : Type) → Switch σ α → Prop
  | pure {σ α} (a : α) : HeedsSwitch σ α (pure a)
  | fail {σ α} (e : Fault) : HeedsSwitch σ α (fail e)
  | carry {σ α} (f : σ → α × σ) : HeedsSwitch σ α (outside (carry f))
  | bind {σ α β} {m : Switch σ α} {f : α → Switch σ β} :
      HeedsSwitch σ α m → (∀ a, HeedsSwitch σ β (f a)) → HeedsSwitch σ β (m >>= f)
  | attempt {σ α} {m : Switch σ α} : HeedsSwitch σ α m → Honest (fun carried => carried.1.added) m →
      HeedsSwitch σ (Except Fault α) (attempt m)
  | case {σ} (labels : List CaseLabel) {block : Block σ} :
      (∀ c, Heeds σ c Unit (block c)) → HeedsSwitch σ Unit (case labels block)
  | defaultCase {σ} {block : Block σ} :
      (∀ c, Heeds σ c Unit (block c)) → HeedsSwitch σ Unit (defaultCase block)
  | setFallthrough {σ} (fallthrough : Bool) : HeedsSwitch σ Unit (setFallthrough fallthrough)
  | target {σ} : HeedsSwitch σ Target switchTarget

end

mutual

theorem Heeds.writes {σ : Type} {here : Nat} {α : Type} {m : Build σ α} :
    Heeds σ here α m → Writes σ here α m
  | .pure a => .pure a
  | .fail e => .fail e
  | .carry f => .carry f
  | .bind hm hf => .bind hm.writes fun a => (hf a).writes
  | .attempt hm _ => .attempt hm.writes
  | .call h => .call h
  | .ifThen cond hblock => .ifThen cond fun c => (hblock c).writes
  | .ifElse cond htrue hfalse => .ifElse cond (fun c => (htrue c).writes) fun c => (hfalse c).writes
  | .block hblock => .block fun c => (hblock c).writes
  | .whileLoop htest hbody => .whileLoop (fun c => (htest c).writes) fun c => (hbody c).writes
  | .loop hbody => .loop fun c => (hbody c).writes
  | .forEachArray array hbody => .forEachArray array fun c v => (hbody c v).writes
  | .forEachIterable iterable hbody => .forEachIterable iterable fun c v => (hbody c v).writes
  | .tryCatch hparts => .tryCatch hparts.writes
  | .switchInt selector harms => .switchInt selector harms.writes
  | .switchString selector harms => .switchString selector harms.writes
  | .switchEnum selector harms => .switchEnum selector harms.writes

theorem HeedsTry.writes {σ : Type} {α : Type} {m : Try σ α} : HeedsTry σ α m → WritesTry σ α m
  | .pure a => .pure a
  | .fail e => .fail e
  | .carry f => .carry f
  | .bind hm hf => .bind hm.writes fun a => (hf a).writes
  | .attempt hm _ => .attempt hm.writes
  | .body hblock => .body fun c => (hblock c).writes
  | .catchClause caught hblock => .catchClause caught fun c v => (hblock c v).writes
  | .finallyBlock hblock _ => .finallyBlock hblock

theorem HeedsSwitch.writes {σ : Type} {α : Type} {m : Switch σ α} :
    HeedsSwitch σ α m → WritesSwitch σ α m
  | .pure a => .pure a
  | .fail e => .fail e
  | .carry f => .carry f
  | .bind hm hf => .bind hm.writes fun a => (hf a).writes
  | .attempt hm _ => .attempt hm.writes
  | .case labels hblock => .case labels fun c => (hblock c).writes
  | .defaultCase hblock => .defaultCase fun c => (hblock c).writes
  | .setFallthrough fallthrough => .setFallthrough fallthrough
  | .target => .target

end

mutual

/-- If a call is noted, there is one in a scope that is built. -/
theorem Heeds.marks {σ : Type} {here : Nat} {α : Type} {m : Build σ α} :
    Heeds σ here α m → MarksIn here m
  | .pure a => fun _ _ => .quiet (.pure a)
  | .fail e => fun _ _ => .quiet (.fail e)
  | .carry f => fun _ _ => .quiet (.carry f)
  | .bind hm hf => fun L hhere => (hm.marks L hhere).bind fun a => (hf a).marks L hhere
  | .attempt hm hhonest => hm.marks.attempt hm.writes.stepwise hhonest
  | .call h => fun _ hhere => h.marks hhere
  | .ifThen cond hblock => MarksIn.follows.ifThen cond fun c => (hblock c).marks
  | .ifElse cond htrue hfalse =>
    MarksIn.follows.ifElse cond (fun c => (htrue c).marks) fun c => (hfalse c).marks
  | .block hblock => MarksIn.follows.nest fun c => (hblock c).marks
  | .whileLoop htest hbody =>
    MarksIn.follows.whileLoop (fun c => (htest c).marks) fun c => (hbody c).marks
  | .loop hbody => MarksIn.follows.loop fun c => (hbody c).marks
  | .forEachArray array hbody => MarksIn.follows.forEachArray array fun c v => (hbody c v).marks
  | .forEachIterable iterable hbody =>
    MarksIn.follows.forEachIterable iterable fun c v => (hbody c v).marks
  | .tryCatch hparts => .tryCatch hparts.marks
  | .switchInt selector harms => .switchPlain harms.marks _ _ selector
  | .switchString selector harms => .switchPlain harms.marks _ _ selector
  | .switchEnum selector harms => .switchEnum harms.marks selector

theorem HeedsTry.marks {σ : Type} {α : Type} {m : Try σ α} :
    HeedsTry σ α m → MarksParts added m
  | .pure a => fun _ => .pure a fun _ h => h
  | .fail e => fun _ => .fail e
  | .carry f => (WritesTry.carry f).gathering.marksParts (Stepwise.carry f).outside
  | .bind hm hf => fun L => (hm.marks L).bind fun a => (hf a).marks L
  | .attempt hm hhonest => hm.marks.attempt hm.writes.stepwise hm.writes.gathering hhonest
  | .body hblock => marksParts_tryBody fun c => (hblock c).marks
  | .catchClause caught hblock => marksParts_catchClause caught fun c v => (hblock c v).marks
  | .finallyBlock hblock hcalls => marksParts_finallyBlock (fun c => (hblock c).stepwise) hcalls

theorem HeedsSwitch.marks {σ : Type} {α : Type} {m : Switch σ α} :
    HeedsSwitch σ α m → MarksParts SwitchDraft.added m
  | .pure a => fun _ => .pure a fun _ h => h
  | .fail e => fun _ => .fail e
  | .carry f => (WritesSwitch.carry f).gathering.marksParts (Stepwise.carry f).outside
  | .bind hm hf => fun L => (hm.marks L).bind fun a => (hf a).marks L
  | .attempt hm hhonest => hm.marks.attempt hm.writes.fairSteps.steps hm.writes.gathering hhonest
  | .case labels hblock => marksParts_case labels fun c => (hblock c).marks
  | .defaultCase hblock => marksParts_defaultCase fun c => (hblock c).marks
  | .setFallthrough fallthrough =>
      (WritesSwitch.setFallthrough fallthrough).gathering.marksParts (.redraft _)
  | .target => WritesSwitch.target.gathering.marksParts ((Stepwise.draft _).bind fun _ => .see _)

end

end Build

namespace Body

/-! ## Constructors -/

variable {start b : Body} {tables : OrdinalTable.All}

theorem Begins.marked (h : Begins tables start) (hconstructor : start.method.isConstructor) :
    start.Marked [0] := by
  obtain ⟨hsize, _, _, hinit⟩ := h.bare
  refine ⟨fun s hs => mem_singleton.mp hs ▸ hsize ▸ Nat.one_pos, fun hn => ?_⟩
  rw [initNoted, hinit hconstructor] at hn
  cases hn

theorem initCall_superCall (b : Body) : b.InitCall b.superCall :=
  ⟨.noArgInit b.superClass, [], rfl, rfl, .inr rfl⟩

theorem completeInit_of_noted (h : b.initNoted) : b.completeInit = .ok b := by
  unfold completeInit
  split
  · next hinit _ =>
    rw [initNoted, hinit] at h
    cases h
  · rfl

/-- Without a call, the one of the super class comes first if it may. -/
theorem completeInit_of_not_noted (hsome : b.init.isSome) (hreceiver : b.hasReceiver)
    (h : ¬ b.initNoted) : b.completeInit =
      if b.settings.superCall then .ok (b.prepend b.superCall) else .error
        (.missingInit b.method) := by
  obtain ⟨state, hinit⟩ := Option.isSome_iff_exists.mp hsome
  obtain ⟨called, fields⟩ := state
  cases called with
  | true =>
    rw [initNoted, hinit] at h
    exact absurd rfl h
  | false =>
    unfold completeInit
    split
    · rfl
    · next hne => exact (hne fields hinit hreceiver).elim

end Body

/-- A constructor that is built by calls that end well, while it heeds the failures that leave a
note behind, calls a constructor on its object: where it was asked for, or before all else. If
it cannot be so, there is no code. -/
theorem constructor_initializes {tables : OrdinalTable.All} {start : Body}
    (hstart : Body.Begins tables start) (hconstructor : start.method.isConstructor)
    (hreceiver : start.hasReceiver) {σ : Type} {program : Build σ Unit}
    (hprogram : Build.Heeds σ 0 Unit program) {s : σ} {w : Work σ}
    (hrun : program ⟨start, s⟩ = .ok () w) :
    (∃ b, w.body.completeInit = .ok b ∧ b.method = start.method ∧ b.InitIn 0 ∧
      (b = w.body ∨ b.operations 0 = w.body.superCall :: w.body.operations 0)) ∨
    ¬ w.body.initNoted ∧ ¬ start.settings.superCall ∧
      w.body.toCode = .error (.missingInit start.method) := by
  have hmarked : w.body.Marked [0] := hprogram.marks [0] (mem_singleton_self 0) ⟨start, s⟩ () w
    (hstart.marked hconstructor) hrun
  have hsteps := hprogram.writes.stepwise ⟨start, s⟩
  rw [after_of_ok hrun] at hsteps
  have hhead := hsteps.sameHead
  by_cases hn : w.body.initNoted
  · obtain ⟨s, hs, hin⟩ := hmarked.noted hn
    rw [mem_singleton.mp hs] at hin
    exact .inl ⟨w.body, completeInit_of_noted hn, hhead.method, hin, .inl rfl⟩
  · have hsome : w.body.init.isSome := by
      rw [hhead.init, hstart.bare.2.2.2 hconstructor]
      rfl
    have hinit := completeInit_of_not_noted hsome (hhead.hasReceiver.trans hreceiver) hn
    by_cases hsuper : start.settings.superCall
    · rw [hhead.settings, if_pos hsuper] at hinit
      have hops := operations_prepend w.body.superCall (hmarked.bound 0 mem_cons_self) 0
      rw [if_pos rfl] at hops
      refine .inl ⟨_, hinit, hhead.method, ⟨0, _, .refl, ?_, w.body.initCall_superCall⟩, .inr hops⟩
      rw [hops]
      exact mem_cons_self
    · rw [hhead.settings, if_neg hsuper, hhead.method] at hinit
      exact .inr ⟨hn, hsuper, toCode_of_init hinit⟩

def Body.sampleInit : Body :=
  ((start ⟨0, 0⟩ (.noArgInit ⟨"demo/A"⟩) .publicFlag .object {} #[]).toOption).get rfl

theorem Body.begins_sampleInit : Begins #[] sampleInit :=
  ⟨⟨0, 0⟩, .noArgInit ⟨"demo/A"⟩, .publicFlag, .object, {}, rfl⟩

namespace Build

def chooseInit : Build Unit Unit := do
  let one ← constInt 1
  let two ← constInt 2
  let _ ← attempt (returnValue 0 one)
  let less ← compare 0 .lt one two
  ifElse 0 less (fun yes => invokeConstructor yes .objectInit []) fun no =>
    invokeConstructor no { owner := ⟨"demo/A"⟩, name := .init, type := ⟨[.int, .int], none⟩ }
      [one, two]

theorem heeds_chooseInit : Heeds Unit 0 Unit chooseInit :=
  .bind (.call (.constInt 1)) fun one => .bind (.call (.constInt 2)) fun two =>
    .bind (.attempt (.call (.returnValue one))
      (Stepwise.honest (Stepwise.follows.returnValue .exitEdge one))) fun _ =>
    .bind (.call (.compare .lt one two)) fun less =>
    .ifElse less (fun _ => .call (.invokeConstructor _ _)) fun _ => .call (.invokeConstructor _ _)

def refusedInit : Build Unit Unit := do
  let _ ← attempt (invokeConstructor 0
    { owner := .object, name := .init, type := ⟨[.int], none⟩ } [])
  pure ()

theorem writes_refusedInit : Writes Unit 0 Unit refusedInit :=
  .bind (.attempt (.call (.invokeConstructor _ _))) fun _ => .pure ()

end Build

theorem constructor_initializes_chooseInit :
    ∃ w, chooseInit ⟨sampleInit, ()⟩ = .ok () w ∧ w.body.initNoted ∧
      ∃ b, w.body.completeInit = .ok b ∧ b.InitIn 0 := by
  obtain ⟨_, hrun⟩ := exists_ok_of_endsWell
    (show endsWell chooseInit ⟨sampleInit, ()⟩ = true by decide +kernel)
  have hnoted : (after chooseInit ⟨sampleInit, ()⟩).body.initNoted := by
    decide +kernel
  refine ⟨_, hrun, hnoted, ?_⟩
  rcases constructor_initializes begins_sampleInit (by decide) (by decide)
    heeds_chooseInit hrun with ⟨b, hinit, _, hin, _⟩ | ⟨hn, _⟩
  · exact ⟨b, hinit, hin⟩
  · exact absurd hnoted hn

/-- The note of a call that is refused stays, so there is code without any call. -/
theorem refused_call_noted :
    let b := (after refusedInit ⟨sampleInit, ()⟩).body
    b.Built ∧ b.method.isConstructor ∧ b.hasReceiver ∧ b.completeInit = .ok b ∧
      (∃ code notice, b.toCode = .ok (code, notice)) ∧
      ∀ s, ∀ op ∈ b.operations s, ¬ b.InitCall op := by
  intro b
  have hbuilt : b.Built := .first begins_sampleInit writes_refusedInit
  have hinit : b.completeInit = .ok b := completeInit_of_noted (by decide +kernel)
  have hempty : b.operations 0 = [] := List.isEmpty_iff.mp (by decide +kernel)
  have hsize : b.scopes.size = 1 := by decide +kernel
  refine ⟨hbuilt, by decide +kernel, by decide +kernel, hinit,
    exists_code hbuilt (by constructor <;> decide +kernel), fun s op hop => ?_⟩
  have hlt := lt_size_of_mem_operations hop
  rw [hsize] at hlt
  rw [Nat.lt_one_iff.mp hlt, hempty] at hop
  exact absurd hop not_mem_nil

end ClassAssembler
