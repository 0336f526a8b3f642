import ClassAssembler.Proofs.Build.Serving

/-!
# Statements built in parts, and whole programs

The arms of a switch and the parts of a try statement are held by nothing until the statement is
pushed.
-/

namespace ClassAssembler

open List

namespace Build

variable {σ α : Type} {b : Body} {j : Journal} {here frame x : Nat} {P : List Nat}

abbrev behind {δ : Type} (state : δ × Journal × σ) : Journal := state.2.1

def ArmsSofar (b : Body) (j : Journal) (here frame : Nat)
    (w : Work (SwitchDraft × Journal × σ)) : Prop :=
  w.carried.1.frame = frame ∧
    Sofar behind b j here (frame :: w.carried.1.arms.toList.map Arm.scope) w

abbrev ServesSwitch (m : Switch (Journal × σ) α) : Prop :=
  ∀ b j here frame, Succeeds (ArmsSofar b j here frame) m fun _ => ArmsSofar b j here frame

theorem ServesSwitch.visit {m : Switch (Journal × σ) α} (hd : SameDraft m)
    (hm : ∀ x, Serving behind x m fun _ => []) : ServesSwitch m := by
  rintro b j here frame w a w' ⟨hframe, h⟩ hr
  have hsame := hd w
  rw [after_of_ok hr] at hsame
  rw [ArmsSofar, hsame]
  exact ⟨hframe, Sofar.visit (.inl rfl) (hm here) w a w' h hr⟩

theorem Body.level_withTables (b : Body) (tables : OrdinalTable.All) (notices : Array Notice) :
    b.Level { b with tables, notices } :=
  ⟨⟨.refl, fun _ _ => rfl, fun _ _ => rfl, fun _ _ h => h, fun _ => .refl _, rfl⟩, rfl, rfl⟩

theorem serving_tableIndex {τ : Type} {journal : τ → Journal} (table : Nat)
    (constant : MemberName) :
    Serving journal x (tableIndex table constant : Build τ Int32) fun _ => [] := by
  refine serving_change fun b => ?_
  cases b.tables[table]? with
  | none => exact (Body.Alike.refl b).toLevel
  | some row => exact Body.level_withTables b _ b.notices

theorem servesSwitch_caseKey (label : CaseLabel) :
    ServesSwitch (caseKey label : Switch (Journal × σ) CaseKey) := by
  intro b j here frame
  refine (Succeeds.draft _).bind fun kind => (Succeeds.draft _).bind fun table => ?_
  split
  · exact .pure _ fun _ h => h
  · exact .pure _ fun _ h => h
  · split
    · exact .fail _
    · exact (ServesSwitch.visit (.change _) (fun _ => serving_tableIndex _ _) b j here frame).bind
        fun _ => .pure _ fun _ h => h
  · exact .fail _

theorem servesSwitch_takeLabel (label : CaseLabel) :
    ServesSwitch (takeLabel label : Switch (Journal × σ) CaseKey) := by
  intro b j here frame
  refine (servesSwitch_caseKey label b j here frame).bind fun key => ?_
  refine Succeeds.bind (J := fun _ => ArmsSofar b j here frame) ?_ fun known => ?_
  · rintro w a w' h hr
    cases hr
    exact h
  · split
    · exact .fail_bind _ _
    · exact .pure _ fun _ h => h

variable {block : Block (Journal × σ)}

theorem servesSwitch_arm {kind : ScopeKind} (hk : kind ≠ .catchAll) (hk' : kind ≠ .finallyCopy)
    (keys : List CaseKey) (isDefault : Bool)
    (hblock : ∀ c, Serves c (block c)) : ServesSwitch (arm kind keys isDefault block) := by
  intro b j here frame
  refine .fixing fun d => .draft_bind ?_
  refine Succeeds.weaken (I := fun w => w.carried.1 = d ∧ d.frame = frame ∧
      Sofar behind b j here (d.frame :: d.arms.toList.map Arm.scope) w)
    (J := fun _ => ArmsSofar b j here frame) ?_ ?_ fun _ _ h => h
  · refine ((Succeeds.frame (Sofar.openScope (.inr (.head ..)) hk hk')).sameDraft
      (.change _)).bind fun c => ?_
    refine ((Succeeds.frame (Sofar.visit (.inr (by simp)) (hblock c).outside)).sameDraft
      (.outside _)).bind fun _ => .redraft ?_
    rintro w ⟨rfl, hframe, h⟩
    have heq : (w.carried.1.arms.push ⟨keys, isDefault, c⟩).toList.map Arm.scope =
        w.carried.1.arms.toList.map Arm.scope ++ [c] := by simp
    refine ⟨hframe, ?_⟩
    rw [heq, ← hframe]
    exact h
  · rintro w ⟨rfl, hframe, h⟩
    exact ⟨rfl, hframe, hframe ▸ h⟩

theorem servesSwitch_case (labels : List CaseLabel)
    (hblock : ∀ c, Serves c (block c)) : ServesSwitch (case labels block) := fun b j here frame =>
  (Succeeds.mapM (fun label => servesSwitch_takeLabel label b j here frame) labels).bind fun keys =>
    servesSwitch_arm (by decide) (by decide) keys false hblock b j here frame

theorem servesSwitch_defaultCase
    (hblock : ∀ c, Serves c (block c)) : ServesSwitch (defaultCase block) := by
  intro b j here frame
  refine (Succeeds.draft _).bind fun known => ?_
  split
  · exact .fail_bind _ _
  · exact Succeeds.bind (.redraft fun _ h => h) fun _ =>
      servesSwitch_arm (by decide) (by decide) [] true hblock b j here frame

theorem serves_switchOn (kind : SwitchKind) (table : Option Nat) (selector : Operand)
    {arms : Switch (Journal × σ) Unit} (harms : ServesSwitch arms) :
    Serves here (switchOn here kind table selector arms) := by
  refine .of_sofar fun b j => (Sofar.openScope (.inl rfl) (by decide) (by decide)).bind
    fun frame => ?_
  have hdraft : Succeeds (Sofar Prod.fst b j here ([] ++ [frame]))
      (withDraft { kind, table, frame } arms)
      fun d => Sofar Prod.fst b j here (frame :: d.arms.toList.map Arm.scope) :=
    (Succeeds.withDraft (harms b j here frame) _).weaken (fun w h => ⟨rfl, h⟩) fun _ _ h => h.2
  exact hdraft.bind fun d => Sofar.push [] (.inl rfl) (by simp) fun c hc => .inr hc

theorem serves_tableFor (enumType : ClassName) :
    Serves here (tableFor enumType : Build (Journal × σ) (Nat × MethodRef)) := by
  refine .of_sofar fun b j => (Sofar.calm (.inl rfl) (.see _)).bind fun settings => ?_
  refine (Sofar.calm (.inl rfl) (.see _)).bind fun shared => ?_
  split
  · exact .pure _ fun _ h => h
  · refine (Sofar.calm (.inl rfl) (.see _)).bind fun owner => ?_
    refine (Sofar.calm (.inl rfl) (.see _)).bind fun siblings => ?_
    refine (Sofar.calm (.inl rfl) (.ofExcept _)).bind fun table => ?_
    exact Sofar.visit (.inl rfl) (serving_change fun b => Body.level_withTables b _ _)

theorem serves_switchEnum (selector : Value) {arms : Switch (Journal × σ) Unit}
    (harms : ServesSwitch arms) : Serves here (switchEnum here selector arms) := by
  refine .of_sofar fun b j => (Sofar.calm (.inl rfl) (.typeOf selector)).bind fun type => ?_
  split
  · refine (Sofar.calm (.inl rfl) (.operandAsIs selector)).bind fun o => ?_
    refine (Sofar.visit (.inl rfl) (serves_tableFor _)).bind fun found => ?_
    exact Sofar.visit (.inl rfl) (serves_switchOn _ _ _ harms)
  · exact .fail _

/-! ## Parts of try statements -/

/-- A statement in `here` is under construction, and `P` are still to be held. -/
structure Inside (b : Body) (j : Journal) (here frame : Nat) (P : List Nat) (b' : Body)
    (j' : Journal) : Prop where
  lt : here < b.scopes.size
  moved : b.Moved here j P [] [] b' j'
  trying : b'.trying = frame :: b.trying

abbrev InsideWith (b : Body) (j : Journal) (here frame : Nat) (d : TryDraft) (P : List Nat)
    (w : Work (TryDraft × Journal × σ)) : Prop :=
  w.carried.1 = d ∧ Inside b j here frame P w.body (behind w.carried)

section parts

variable {d : TryDraft}

variable {m : Try (Journal × σ) α} {block : Block (Journal × σ)}

theorem Succeeds.calm {I : Body → Journal → Prop} (hm : Calm x m)
    (hlt : ∀ b' j', I b' j' → b'.Tended ∧ x < b'.scopes.size)
    (hI : ∀ b1 b2 j', I b1 j' → b1.Served x j' [] b2 j' → I b2 j') :
    Succeeds (fun w => w.carried.1 = d ∧ I w.body (behind w.carried)) m
      fun _ w => w.carried.1 = d ∧ I w.body (behind w.carried) := by
  rintro w a w' ⟨hd, h⟩ hr
  obtain ⟨ht, hlt⟩ := hlt _ _ h
  obtain ⟨halike, hsame⟩ := hm w hlt
  rw [after_of_ok hr] at halike hsame
  rw [hsame]
  exact ⟨hd, hI _ _ _ h (.level ht halike.toLevel)⟩

theorem Inside.served {b1 b2 : Body} {j1 j2 : Journal} {Q : List Nat}
    (h : Inside b j here frame P b1 j1) (hx : b.scopes.size ≤ x) (hstep : b1.Served x j1 Q b2 j2) :
    Inside b j here frame (P ++ Q) b2 j2 :=
  ⟨h.lt, h.moved.trans (fun _ hN => by cases hN) hstep.toMoved (.inr hx),
    hstep.trying.trans h.trying⟩

theorem Inside.serve {opened : α → List Nat} (hx : x ∈ P)
    (hm : Serving behind x m opened) (hd : SameDraft m) :
    Succeeds (InsideWith b j here frame d P) m
      fun a => InsideWith b j here frame d (P ++ opened a) := by
  refine Succeeds.sameDraft (fun w a w' h hr => ?_) hd
  obtain ⟨hge, hlt⟩ := h.moved.tends.pending x hx
  exact h.served hge (hm w a w' h.moved.tends.tended hlt hr)

theorem Inside.visit (hx : x ∈ P) (hm : Serving behind x m fun _ => []) (hd : SameDraft m) :
    Succeeds (InsideWith b j here frame d P) m fun _ => InsideWith b j here frame d P :=
  (Inside.serve hx hm hd).weaken (fun _ h => h) fun _ w h => by rwa [List.append_nil] at h

theorem Inside.calm (hx : x ∈ P) (hm : Calm x m) :
    Succeeds (InsideWith b j here frame d P) m fun _ => InsideWith b j here frame d P := by
  refine .calm (x := x) hm (fun _ _ h => ⟨h.moved.tends.tended, (h.moved.tends.pending x hx).2⟩)
    fun b1 b2 j' h hstep => ?_
  have hnext := h.served (h.moved.tends.pending x hx).1 hstep
  rwa [List.append_nil] at hnext

theorem ownFrame_eq_ok {call : TryCall} {f : TryFrame → α × TryFrame}
    {w w' : Work (TryDraft × σ)} {a : α} (h : ownFrame call f w = .ok a w') :
    ∃ F outer, w.body.tries = F :: outer ∧ a = (f F).1 ∧
      w' = ⟨{ w.body with tries := (f F).2 :: outer }, w.carried⟩ := by
  cases htries : w.body.tries with
  | nil =>
    simp only [ownFrame, draft, carried, change, bind, EStateM.bind, htries] at h
    cases h
  | cons F outer =>
    simp only [ownFrame, draft, carried, change, bind, EStateM.bind, htries] at h
    split at h
    · cases h
      exact ⟨F, outer, rfl, rfl, rfl⟩
    · cases h

theorem Inside.placeholder (hd : d.frame = frame) :
    Succeeds (InsideWith b j here frame d P) (placeholder : Try (Journal × σ) Cleanup)
      fun cleanup => InsideWith b j here frame d (P ++ [cleanup.scope]) := by
  subst hd
  refine .draft_bind ?_
  -- The new scope is a copy that the statement does not know of yet.
  refine Succeeds.bind (J := fun c w => w.carried.1 = d ∧ ∃ b1, c = b1.scopes.size ∧
    Inside b j here d.frame P b1 (behind w.carried) ∧
      w.body = (b1.openScope (some d.frame) .finallyCopy).2) ?_ fun c => ?_
  · rintro w c w' ⟨hd, h⟩ hr
    cases hr
    exact ⟨hd, w.body, rfl, h, rfl⟩
  refine Succeeds.bind (J := fun _ => InsideWith b j here d.frame d (P ++ [c])) ?_ fun _ => ?_
  · rintro ⟨body, d', state⟩ a w' ⟨hd, b1, rfl, h, hbody⟩ hr
    obtain ⟨F, outer, htries, _, rfl⟩ := ownFrame_eq_ok hr
    obtain rfl : d' = d := hd
    obtain rfl : body = (b1.openScope (some d'.frame) .finallyCopy).2 := hbody
    have hscope : F.scope = d'.frame := by
      have htrying := h.trying
      rw [Body.trying, show b1.tries = F :: outer from htries] at htrying
      exact (List.cons.inj htrying).1
    have hopens : Body.Opens b1.tries b1 [⟨F.id, b1.scopes.size⟩]
        ({ F with placeholders := F.placeholders.push b1.scopes.size } :: outer)
        (b1.openScope (some d'.frame) .finallyCopy).2 := by
      rw [show b1.tries = F :: outer from htries, ← hscope]
      exact .cross (.none outer _)
    have hstep : b1.Served here state.1 _ _ state.1 := .opens h.moved.tends.tended hopens
    exact ⟨rfl, h.lt, h.moved.trans (fun _ hN => by cases hN) hstep.toMoved (.inl rfl),
      hstep.trying.trans h.trying⟩
  · exact (Succeeds.draft _).bind fun id => .pure _ fun _ h => h

/-- The statement so far: its frame and its parts are still to be held, and exits open placeholders
in it until it is finished. -/
structure TrySofar (b : Body) (j : Journal) (here frame : Nat) (d : TryDraft) (b' : Body)
    (j' : Journal) : Prop where
  lt : here < b.scopes.size
  same : d.frame = frame
  moved : b.Moved here j (frame :: d.parts) [] [] b' j'
  isFrame : b'.kindOf frame = .tryFrame
  trying : b'.trying = (if d.collecting then [frame] else []) ++ b.trying
  fresh : d.stage = .fresh → d.body = none ∧ d.bodyExit = []
  unfinished : d.stage ≠ .finished → d.collecting = true ∧ d.catchAll = none

abbrev ServesTry (m : Try (Journal × σ) α) : Prop :=
  ∀ b j here frame,
    Succeeds (fun w => TrySofar b j here frame w.carried.1 w.body (behind w.carried)) m
      fun _ w => TrySofar b j here frame w.carried.1 w.body (behind w.carried)

theorem TrySofar.inside {b' : Body} {j' : Journal} (h : TrySofar b j here frame d b' j')
    (hstage : d.stage ≠ .finished) : Inside b j here frame (frame :: d.parts) b' j' :=
  ⟨h.lt, h.moved, by rw [h.trying, if_pos (h.unfinished hstage).1]; rfl⟩

theorem Inside.sofar {b' : Body} {j' : Journal} (h : Inside b j here frame P b' j')
    (hframe : d.frame = frame) (hP : ∀ c, c ∈ P ↔ c ∈ frame :: d.parts)
    (hstage : d.stage ≠ .fresh) (hopen : d.collecting = true ∧ d.catchAll = none) :
    TrySofar b j here frame d b' j' where
  lt := h.lt
  same := hframe
  moved := h.moved.congr hP
  isFrame := h.moved.tends.tended.frame frame (by rw [h.trying]; exact .head ..)
  trying := by rw [h.trying, if_pos hopen.1]; rfl
  fresh hfresh := absurd hfresh hstage
  unfinished _ := hopen

theorem Succeeds.inStage_bind {τ β : Type} {I : Work (TryDraft × τ) → Prop} {call : TryCall}
    {allowed : List TryStage} {g : Unit → Try τ β} {J : β → Work (TryDraft × τ) → Prop}
    (h : d.stage ∈ allowed → Succeeds (fun w => w.carried.1 = d ∧ I w) (g ()) J) :
    Succeeds (fun w => w.carried.1 = d ∧ I w) (inStage call allowed >>= g) J := by
  refine Succeeds.bind (J := fun _ w => d.stage ∈ allowed ∧ w.carried.1 = d ∧ I w) (.draft_bind ?_)
    fun _ => .assume (fun _ h => h.1) fun hmem => (h hmem).weaken (fun _ h => h.2) fun _ _ h => h
  split
  · exact .fail _
  · next hmem => exact .pure _ fun _ h => ⟨Decidable.not_not.mp hmem, h⟩

theorem Succeeds.unfinished {m : Try (Journal × σ) Unit} (hstage : d.stage ≠ .finished)
    (hm : d.frame = frame → (d.stage = .fresh → d.body = none ∧ d.bodyExit = []) →
      d.collecting = true ∧ d.catchAll = none →
      Succeeds (InsideWith b j here frame d (frame :: d.parts)) m
        fun _ w => TrySofar b j here frame w.carried.1 w.body (behind w.carried)) :
    Succeeds (fun w => w.carried.1 = d ∧
        TrySofar b j here frame w.carried.1 w.body (behind w.carried)) m
      fun _ w => TrySofar b j here frame w.carried.1 w.body (behind w.carried) := by
  rintro w a w' ⟨rfl, h⟩ hr
  exact hm h.same h.fresh (h.unfinished hstage) w a w' ⟨rfl, h.inside hstage⟩ hr

theorem servesTry_body (hblock : ∀ c, Serves c (block c)) : ServesTry (tryBody block) := by
  intro b j here frame
  refine .fixing fun d => .inStage_bind fun hstage => .draft_bind ?_
  have hfresh : d.stage = .fresh := mem_singleton.mp hstage
  refine .unfinished (by rw [hfresh]; decide) fun hframe hnone hopen => ?_
  subst hframe
  obtain ⟨hbody, hexit⟩ := hnone hfresh
  refine (Inside.serve (.head ..) (serving_openScope (by decide) (by decide))
    (.change _)).bind fun c => ?_
  refine (Inside.visit (by simp) (hblock c).outside (.outside _)).bind fun _ => ?_
  refine Succeeds.bind (J := fun _ => InsideWith b j here d.frame { d with body := some c }
    (d.frame :: d.parts ++ [c])) (.redraft fun w h => ⟨by rw [h.1], h.2⟩) fun _ => ?_
  refine (Inside.placeholder rfl).bind fun exit => .redraft ?_
  rintro w ⟨hd, h⟩
  rw [hd]
  refine h.sofar rfl ?_ (by simp) hopen
  intro x
  simp only [TryDraft.parts, hbody, hexit, Option.toList, map_cons, map_nil,
    mem_append, mem_cons, not_mem_nil]
  grind

theorem servesTry_catchClause (caught : ClassName) {block : Nat → Value → Build (Journal × σ) Unit}
    (hblock : ∀ c v, Serves c (block c v)) : ServesTry (catchClause caught block) := by
  intro b j here frame
  refine .fixing fun d => .inStage_bind fun hstage => .draft_bind ?_
  split
  · exact .fail_bind _ _
  refine .draft_bind (.unfinished ?_ fun hframe _ hopen => ?_)
  · intro heq
    rw [heq] at hstage
    simp at hstage
  subst hframe
  refine (Inside.serve (.head ..) (serving_openScope (by decide) (by decide))
    (.change _)).bind fun c => ?_
  refine (Inside.calm (by simp) (.yield _ _ _ : Calm c _)).bind fun exception => ?_
  refine (Inside.visit (by simp) (hblock c exception).outside (.outside _)).bind fun _ => ?_
  refine (Inside.placeholder rfl).bind fun exit => .redraft ?_
  rintro w ⟨hd, h⟩
  rw [hd]
  refine h.sofar rfl ?_ (by simp) hopen
  intro x
  simp only [TryDraft.parts, CatchClause.parts, Array.toList_push, flatMap_append,
    flatMap_cons, flatMap_nil, map_cons, map_nil, mem_append,
    mem_cons, not_mem_nil]
  grind

/-! ## Finally blocks -/

/-- A statement is closed and has the copies `L`; the runs of its finally block into `D` are
noted, and its handler is not open. -/
structure Unwinding (b : Body) (j : Journal) (here frame : Nat) (L P D : List Nat) (b' : Body)
    (j' : Journal) : Prop where
  lt : here < b.scopes.size
  moved : b.Moved here j P (D.map fun c => (frame, c)) [] b' j'
  trying : b'.trying = b.trying
  mem : frame ∈ P
  apart : frame ∉ b.trying
  isFrame : b'.kindOf frame = .tryFrame
  unhandled : ∀ h, ¬ b'.HandlerIn frame h
  copies : ∀ c, b'.CopyIn frame c ↔ c ∈ L

/-- The handler of a closed statement is open and has the copies `C`. -/
structure Handling (b : Body) (j : Journal) (here frame handler : Nat) (P C : List Nat) (b' : Body)
    (j' : Journal) : Prop where
  lt : here < b.scopes.size
  moved : b.Moved here j P [] [handler] b' j'
  trying : b'.trying = b.trying
  mem : frame ∈ P
  isFrame : b'.kindOf frame = .tryFrame
  isHandler : b'.HandlerIn frame handler
  copies : ∀ c, b'.CopyIn handler c ↔ c ∈ C

theorem Inside.close {b1 : Body} {j1 : Journal} {F : TryFrame} {outer : List TryFrame}
    (h : Inside b j here frame P b1 j1) (hmem : frame ∈ P) (htries : b1.tries = F :: outer) :
    F.placeholders.toList.Nodup ∧
      Unwinding b j here frame F.placeholders.toList P [] { b1 with tries := outer } j1 := by
  have ht := h.moved.tends.tended
  have htrying := h.trying
  rw [Body.trying, htries, map_cons] at htrying
  obtain ⟨hscope, houter⟩ := List.cons.inj htrying
  have hnodup := ht.nodup
  rw [h.trying] at hnodup
  obtain ⟨hgathers, hcopies⟩ := ht.copies F (by rw [htries]; exact .head ..)
  have hframe : frame ∈ b1.trying := by rw [h.trying]; exact .head ..
  exact ⟨hgathers, h.lt, h.moved.popFrame htries, houter, hmem, (nodup_cons.mp hnodup).1,
    ht.frame frame hframe, ht.unhandled frame hframe, fun c => by rw [hcopies c, hscope]; rfl⟩

namespace Unwinding

variable {L D : List Nat} {b1 b2 : Body} {j1 j2 : Journal} {c : Nat}

variable (h : Unwinding b j here frame L P D b1 j1)
include h

theorem served (hx : b.scopes.size ≤ x) (hstep : b1.Served x j1 [] b2 j2) :
    Unwinding b j here frame L P D b2 j2 := by
  have hlt := (h.moved.tends.pending frame h.mem).2
  have hnot : frame ∉ b1.trying := by rw [h.trying]; exact h.apart
  have hmoved := h.moved.trans (fun y hy => ?_) hstep.toMoved (.inr hx)
  · rw [List.append_nil] at hmoved
    exact ⟨h.lt, hmoved, hstep.trying.trans h.trying, h.mem, h.apart,
      hstep.tends.kindOf h.isFrame (by decide),
      fun g hg => h.unhandled g ((hstep.tends.handlerIn_iff hlt).mp hg),
      fun c => (hstep.tends.copyIn_iff hlt hnot).trans (h.copies c)⟩
  · obtain ⟨c, _, rfl⟩ := mem_map.mp hy
    exact hlt

theorem noted (hc : c ∉ D) : Unwinding b j here frame L P (c :: D) b1 (j1 ++ [(frame, c)]) :=
  { h with
    moved :=
      { h.moved with
        runs :=
          h.moved.runs.note (h.moved.tends.pending frame h.mem).1 (by simpa using hc)
            h.unhandled } }

theorem openHandler (hD : ∀ c, c ∈ D ↔ c ∈ L) :
    Handling b j here frame b1.scopes.size (b1.scopes.size :: P) []
      (b1.openScope (some frame) .catchAll).2 j1 where
  lt := h.lt
  moved := by
    refine h.moved.openHandler h.mem (by rw [h.trying]; exact h.apart) h.isFrame h.unhandled
      fun x => ?_
    rw [h.copies x.2, ← hD x.2, mem_map]
    constructor
    · rintro ⟨c, hc, rfl⟩
      exact ⟨rfl, hc⟩
    · rintro ⟨rfl, hc⟩
      exact ⟨x.2, hc, rfl⟩
  trying := h.trying
  mem := .tail _ h.mem
  isFrame := (b1.extends_openScope _ _).kindOf h.isFrame (by decide)
  isHandler := Body.handlerIn_openScope.mpr (.inl ⟨rfl, rfl, rfl⟩)
  copies c := by
    rw [Body.copyIn_openScope]
    refine ⟨fun hc => ?_, fun hc => by cases hc⟩
    rcases hc with ⟨_, _, hk⟩ | hc
    · cases hk
    · exact absurd (h.moved.tends.tended.descends hc.1)
        (Nat.lt_asymm (Body.lt_size_of_parentOf hc.1))

end Unwinding

namespace Handling

variable {h : Nat} {C : List Nat} {b1 b2 : Body} {j1 j2 : Journal}

theorem served (h' : Handling b j here frame h P C b1 j1) (hx : b.scopes.size ≤ x)
    (hstep : b1.Served x j1 [] b2 j2) : Handling b j here frame h P C b2 j2 := by
  have hmoved := h'.moved.trans (fun _ hN => by cases hN) hstep.toMoved (.inr hx)
  rw [List.append_nil] at hmoved
  exact ⟨h'.lt, hmoved, hstep.trying.trans h'.trying, h'.mem,
    hstep.tends.kindOf h'.isFrame (by decide), hstep.tends.toExtends.handlerIn h'.isHandler,
    fun c => (hstep.tends.copyIn_handler_iff h'.moved.tends.tended h'.isHandler.2).trans
      (h'.copies c)⟩

theorem calm {m : Try (Journal × σ) α} (hp : x ∈ P) (hm : Calm x m) :
    Succeeds (fun w => w.carried.1 = d ∧ Handling b j here frame h P C w.body (behind w.carried)) m
      fun _ w => w.carried.1 = d ∧ Handling b j here frame h P C w.body (behind w.carried) :=
  .calm (x := x) hm (fun _ _ h' => ⟨h'.moved.tends.tended, (h'.moved.tends.pending x hp).2⟩)
    fun _ _ _ h' => h'.served (h'.moved.tends.pending x hp).1

theorem openCopy (h' : Handling b j here frame h P [] b1 j1) (hp : h ∈ P) :
    Handling b j here frame h (b1.scopes.size :: P) [b1.scopes.size]
      (b1.openScope (some h) .finallyCopy).2 (j1 ++ [(frame, b1.scopes.size)]) where
  lt := h'.lt
  moved := h'.moved.openCopy hp (h'.moved.tends.pending frame h'.mem).1 h'.isFrame h'.isHandler
  trying := h'.trying
  mem := .tail _ h'.mem
  isFrame := (b1.extends_openScope _ _).kindOf h'.isFrame (by decide)
  isHandler := (b1.extends_openScope _ _).handlerIn h'.isHandler
  copies c := by
    rw [Body.copyIn_openScope, h'.copies c]
    simp

end Handling

theorem TrySofar.served {b1 b2 : Body} {j1 j2 : Journal} (h : TrySofar b j here frame d b1 j1)
    (hx : b.scopes.size ≤ x) (hstep : b1.Served x j1 [] b2 j2) :
      TrySofar b j here frame d b2 j2 := by
  have hmoved := h.moved.trans (fun _ hN => by cases hN) hstep.toMoved (.inr hx)
  rw [List.append_nil] at hmoved
  exact ⟨h.lt, h.same, hmoved, hstep.tends.kindOf h.isFrame (by decide),
    hstep.trying.trans h.trying, h.fresh, h.unfinished⟩

theorem TrySofar.calm {d d' : TryDraft} {c : Nat} (hp : c ∈ d'.parts)
    (hm : Calm c m) :
    Succeeds (fun w => w.carried.1 = d ∧ TrySofar b j here frame d' w.body (behind w.carried)) m
      fun _ w => w.carried.1 = d ∧ TrySofar b j here frame d' w.body (behind w.carried) :=
  .calm hm (fun _ _ h =>
      ⟨h.moved.tends.tended, (h.moved.tends.pending c (.tail _ hp)).2⟩)
    fun _ _ _ h => h.served (h.moved.tends.pending c (.tail _ hp)).1

theorem Handling.finish {b1 : Body} {j1 : Journal} {handler copy : Nat}
    (h : Handling b j here d.frame handler (copy :: handler :: d.frame :: d.parts) [copy] b1 j1)
    (hnone : d.catchAll = none) :
    TrySofar b j here d.frame
      { d with collecting := false, catchAll := some handler, stage := .finished }
      (b1.push handler (.block copy)) j1 where
  lt := h.lt
  same := rfl
  moved := by
    have hparts : ∀ c, c ∈ TryDraft.parts
        { d with collecting := false, catchAll := some handler, stage := .finished } ↔
        c = handler ∨ c ∈ d.parts := by
      intro c
      simp only [TryDraft.parts, hnone, Option.toList, mem_append, mem_cons,
        not_mem_nil]
      grind
    refine h.moved.closeHandler (by simp) (fun c hc => ?_) (fun c hc => ?_) fun c => by
      rw [h.copies, mem_singleton]
    · rw [mem_cons, hparts] at hc
      simp only [mem_cons]
      grind
    · rw [mem_cons, hparts]
      simp only [mem_cons] at hc
      grind
  isFrame := by rw [Body.kindOf_push]; exact h.isFrame
  trying := h.trying
  fresh hfresh := by cases hfresh
  unfinished hne := absurd rfl hne

section

variable (hblock : ∀ c, Serves c (block c))
include hblock

theorem run_noted {c : Nat}
    {w w' : Work (TryDraft × Journal × σ)} (ht : w.body.Tended) (hc : c < w.body.scopes.size)
    (hr : outside (note frame c >>= fun _ => block c) w = .ok () w') :
    w'.carried.1 = w.carried.1 ∧ w.body.Served c (behind w.carried ++ [(frame, c)]) [] w'.body
      (behind w'.carried) := by
  obtain ⟨body, d, journal, s⟩ := w
  have hrun := (hblock c).outside (δ := TryDraft) ⟨body, d, journal ++ [(frame, c)], s⟩
    () w' ht hc hr
  have hsame := SameDraft.outside (δ := TryDraft) (note frame c >>= fun _ => block c)
    ⟨body, d, journal, s⟩
  rw [after_of_ok hr] at hsame
  exact ⟨hsame, hrun⟩

theorem Unwinding.forM {L : List Nat} (rest D : List Nat) (hrest : ∀ c ∈ rest, c ∈ L)
    (hnodup : rest.Nodup) (hD : ∀ c ∈ rest, c ∉ D) :
    Succeeds (fun w => w.carried.1 = d ∧ Unwinding b j here frame L P D w.body (behind w.carried))
      (rest.forM fun c => outside (note frame c >>= fun _ => block c) : Try (Journal × σ) Unit)
      fun _ w => w.carried.1 = d ∧
        Unwinding b j here frame L P (rest.reverse ++ D) w.body (behind w.carried) := by
  induction rest generalizing D with
  | nil => exact .pure _ fun _ h => h
  | cons c rest ih =>
    obtain ⟨hc, hnodup⟩ := nodup_cons.mp hnodup
    refine Succeeds.bind (J := fun _ w => w.carried.1 = d ∧
      Unwinding b j here frame L P (c :: D) w.body (behind w.carried)) ?_ fun _ => ?_
    · rintro w ⟨⟩ w' ⟨rfl, h⟩ hr
      have hcopy := (h.copies c).mpr (hrest c (.head ..))
      obtain ⟨hsame, hstep⟩ := run_noted hblock h.moved.tends.tended
        (Body.lt_size_of_parentOf hcopy.1) hr
      have hge := (h.moved.tends.pending frame h.mem).1
      have hgt := h.moved.tends.tended.descends hcopy.1
      exact ⟨hsame, (h.noted (hD c (.head ..))).served (by omega) hstep⟩
    · have hrec := ih (c :: D) (fun x hx => hrest x (.tail _ hx)) hnodup fun x hx hmem => ?_
      · rwa [show (c :: rest).reverse ++ D = rest.reverse ++ c :: D by simp]
      · rcases mem_cons.mp hmem with rfl | hmem
        · exact hc hx
        · exact hD x (.tail _ hx) hmem

theorem servesTry_finallyNoted :
    ServesTry (finallyNoted block) := by
  intro b j here frame
  refine .fixing fun d => .draft_bind (.inStage_bind fun hstage => ?_)
  have hne : d.stage ≠ .finished := by
    intro heq
    rw [heq] at hstage
    simp at hstage
  refine .unfinished hne fun hframe _ ⟨_, hnone⟩ => ?_
  subst hframe
  -- The statement gives up its placeholders and its place on the stack.
  refine Succeeds.bind (J := fun L w => w.carried.1 = d ∧ ∃ b1 F outer,
    Inside b j here d.frame (d.frame :: d.parts) b1 (behind w.carried) ∧ b1.tries = F :: outer ∧
      L = F.placeholders.toList ∧
        w.body = { b1 with tries := { F with placeholders := #[] } :: outer }) ?_ fun L => ?_
  · rintro w L w' ⟨rfl, h⟩ hr
    obtain ⟨F, outer, htries, rfl, rfl⟩ := ownFrame_eq_ok hr
    exact ⟨rfl, w.body, F, outer, h, htries, rfl, rfl⟩
  refine Succeeds.bind (J := fun _ w => L.Nodup ∧ w.carried.1 = d ∧
    Unwinding b j here d.frame L (d.frame :: d.parts) [] w.body (behind w.carried)) ?_ fun _ => ?_
  · rintro ⟨body, d', state⟩ a w' ⟨hd, b1, F, outer, h, htries, rfl, hbody⟩ hr
    obtain rfl : body = { b1 with tries := { F with placeholders := #[] } :: outer } := hbody
    cases hr
    obtain ⟨hnodup, hclosed⟩ := h.close (.head ..) htries
    exact ⟨hnodup, hd, hclosed⟩
  refine .assume (fun _ h => h.1) fun hnodup => ?_
  refine Succeeds.bind (J := fun _ w => w.carried.1 = { d with collecting := false } ∧
    Unwinding b j here d.frame L (d.frame :: d.parts) [] w.body (behind w.carried))
    (.redraft fun w h => ⟨by rw [h.2.1], h.2.2⟩) fun _ => ?_
  refine (Unwinding.forM hblock L [] (fun _ hc => hc) hnodup fun _ _ hc => by cases hc).bind
    fun _ => ?_
  refine .draft_bind ?_
  -- The handler is opened, and gets a copy of its own.
  refine Succeeds.bind (J := fun handler w => w.carried.1 = { d with collecting := false } ∧
    Handling b j here d.frame handler (handler :: d.frame :: d.parts) [] w.body (behind w.carried))
    ?_ fun handler => ?_
  · rintro w handler w' ⟨hd, h⟩ hr
    cases hr
    exact ⟨hd, h.openHandler (by simp)⟩
  refine Succeeds.bind (Handling.calm (.head ..) (.yield _ _ _)) fun exception => ?_
  refine Succeeds.bind (J := fun copy w => w.carried.1 = { d with collecting := false } ∧
    ∃ b1, copy = b1.scopes.size ∧ Handling b j here d.frame handler
      (handler :: d.frame :: d.parts) [] b1 (behind w.carried) ∧
        w.body = (b1.openScope (some handler) .finallyCopy).2) ?_ fun copy => ?_
  · rintro w copy w' ⟨hd, h⟩ hr
    cases hr
    exact ⟨hd, w.body, rfl, h, rfl⟩
  refine Succeeds.bind (J := fun _ w => w.carried.1 = { d with collecting := false } ∧
    Handling b j here d.frame handler (copy :: handler :: d.frame :: d.parts) [copy] w.body
      (behind w.carried)) ?_ fun _ => ?_
  · rintro ⟨body, d', state⟩ ⟨⟩ w' ⟨hd, b1, rfl, h, hbody⟩ hr
    obtain rfl : body = (b1.openScope (some handler) .finallyCopy).2 := hbody
    have hcopied := h.openCopy (.head ..)
    obtain ⟨hge, hlt⟩ := hcopied.moved.tends.pending _ (.head ..)
    obtain ⟨hsame, hstep⟩ := run_noted hblock hcopied.moved.tends.tended hlt hr
    exact ⟨hsame.trans hd, hcopied.served hge hstep⟩
  refine Succeeds.bind (J := fun _ w => w.carried.1 = { d with collecting := false } ∧
    TrySofar b j here d.frame
      { d with collecting := false, catchAll := some handler, stage := .finished } w.body
      (behind w.carried)) ?_ fun _ => ?_
  · rintro w a w' ⟨hd, h⟩ hr
    cases hr
    exact ⟨hd, h.finish hnone⟩
  refine Succeeds.bind (TrySofar.calm (c := handler) (by simp [TryDraft.parts])
    (.of_leaf (leaf_throwValue (anywhere _)))) fun _ => .redraft fun w h => ?_
  rw [h.1]
  exact h.2

end

/-! ## Whole statements -/

theorem TrySofar.start (hb : b.Tended) (hlt : here < b.scopes.size) (id : Nat) :
    TrySofar b j here b.scopes.size { id, frame := b.scopes.size } (b.openTry here) j where
  lt := hlt
  same := rfl
  moved := .openTry hb hlt
  isFrame := b.kindOf_new (some here) .tryFrame
  trying := rfl
  fresh _ := ⟨rfl, rfl⟩
  unfinished _ := ⟨rfl, rfl⟩

theorem TrySofar.closeFrame :
    Succeeds (fun w => TrySofar b j here frame d w.body w.carried.1)
      (closeFrame d : Build (Journal × σ) Unit)
      fun _ w => d.frame = frame ∧ Sofar Prod.fst b j here (frame :: d.parts) w := by
  unfold Build.closeFrame
  cases hc : d.collecting with
  | false =>
    refine .pure _ fun w h => ⟨h.same, h.lt, h.moved, ?_⟩
    rw [h.trying, hc]
    rfl
  | true =>
    refine Succeeds.bind (J := fun _ w => d.frame = frame ∧
      Sofar Prod.fst b j here (frame :: d.parts) w) (.change fun w h => ?_) fun closed => ?_
    · have htrying := h.trying
      rw [hc, if_pos rfl] at htrying
      cases htries : w.body.tries with
      | nil =>
        rw [Body.trying, htries] at htrying
        cases htrying
      | cons F outer =>
        rw [Body.trying, htries] at htrying
        exact ⟨h.same, h.lt, h.moved.popFrame htries, (List.cons.inj htrying).2⟩
    · split
      · exact .fail _
      · exact .pure _ fun _ h => h

theorem serves_tryCatch {parts : Try (Journal × σ) Unit} (hparts : ServesTry parts) :
    Serves here (tryCatch here parts) := by
  intro w a w' hw hlt hr
  have key : Succeeds (fun v => v = w) (tryCatch here parts) fun _ =>
      Sofar Prod.fst w.body w.carried.1 here [] := by
    refine Succeeds.bind (J := fun frame v => frame = w.body.scopes.size ∧
      v = ⟨(w.body.openScope (some here) .tryFrame).2, w.carried⟩) ?_ fun frame => ?_
    · rintro v frame v' rfl hr
      cases hr
      exact ⟨rfl, rfl⟩
    refine Succeeds.bind (J := fun _ v => frame = w.body.scopes.size ∧
      v = ⟨w.body.openTry here, w.carried⟩) ?_ fun id => ?_
    · rintro v id v' ⟨rfl, rfl⟩ hr
      cases hr
      exact ⟨rfl, rfl⟩
    have hdraft : Succeeds (fun v => frame = w.body.scopes.size ∧ v = ⟨w.body.openTry here,
        w.carried⟩) (withDraft { id, frame } parts)
        fun d v => TrySofar w.body w.carried.1 here frame d v.body v.carried.1 := by
      refine (Succeeds.withDraft (hparts w.body w.carried.1 here frame) _).weaken ?_ fun _ _ h => h
      rintro v ⟨rfl, rfl⟩
      exact .start hw hlt id
    refine hdraft.bind fun d => ?_
    cases hbody : d.body with
    | none => exact .fail _
    | some scope =>
      refine TrySofar.closeFrame.bind fun _ => .assume (fun _ h => h.1) ?_
      rintro rfl
      refine (Sofar.push [] (.inl rfl) (by simp) fun c hc => .inr ?_).weaken (fun _ h => h.2)
        fun _ _ h => h
      rw [TryDraft.parts, hbody] at hc
      exact hc
  exact (key w a w' rfl hr).served

end parts

mutual

/-- A program that ends well holds every scope it opened, and noted every run of a finally
block. -/
theorem Records.serves {σ : Type} {here : Nat} {α : Type} {m : Build (Journal × σ) α} :
    Records σ here α m → Serves here m
  | .pure a => Calm.serving (.pure a)
  | .fail e => Calm.serving (.fail e)
  | .carry f => Serving.of_same fun ⟨_, _, _⟩ _ _ hr => by cases hr; exact ⟨rfl, rfl⟩
  | .bind hm hf => hm.serves.bind fun a => (hf a).serves
  | .call h => h.serves
  | .ifThen cond hblock => .of_sofar (Sofar.follows.ifThen cond fun c => (hblock c).serves.sofar)
  | .ifElse cond htrue hfalse => .of_sofar (Sofar.follows.ifElse cond
      (fun c => (htrue c).serves.sofar) fun c => (hfalse c).serves.sofar)
  | .block hblock => .of_sofar (Sofar.follows.nest fun c => (hblock c).serves.sofar)
  | .whileLoop htest hbody => .of_sofar (Sofar.follows.whileLoop
      (fun c => (htest c).serves.sofar) fun c => (hbody c).serves.sofar)
  | .loop hbody => .of_sofar (Sofar.follows.loop fun c => (hbody c).serves.sofar)
  | .forEachArray array hbody =>
    .of_sofar (Sofar.follows.forEachArray array fun c v => (hbody c v).serves.sofar)
  | .forEachIterable iterable hbody =>
    .of_sofar (Sofar.follows.forEachIterable iterable fun c v => (hbody c v).serves.sofar)
  | .tryCatch hparts => serves_tryCatch hparts.serves
  | .switchInt selector harms => .of_sofar fun _ _ =>
      (Sofar.calm (.inl rfl) (.operand selector .int)).bind fun _ =>
        Sofar.visit (.inl rfl) (serves_switchOn _ _ _ harms.serves)
  | .switchString selector harms => .of_sofar fun _ _ =>
      (Sofar.calm (.inl rfl) (.operand selector .string)).bind fun _ =>
        Sofar.visit (.inl rfl) (serves_switchOn _ _ _ harms.serves)
  | .switchEnum selector harms => serves_switchEnum selector harms.serves

theorem RecordsTry.serves {σ : Type} {α : Type} {m : Try (Journal × σ) α} :
    RecordsTry σ α m → ServesTry m
  | .pure a => fun _ _ _ _ => .pure a fun _ h => h
  | .fail e => fun _ _ _ _ => .fail e
  | .carry _ => fun _ _ _ _ ⟨_, _, _, _⟩ _ _ h hr => by cases hr; exact h
  | .bind hm hf => fun b j here frame => (hm.serves b j here frame).bind fun a =>
      (hf a).serves b j here frame
  | .body hblock => servesTry_body fun c => (hblock c).serves
  | .catchClause caught hblock => servesTry_catchClause caught fun c v => (hblock c v).serves
  | .finallyNoted hblock => servesTry_finallyNoted fun c => (hblock c).serves

theorem RecordsSwitch.serves {σ : Type} {α : Type} {m : Switch (Journal × σ) α} :
    RecordsSwitch σ α m → ServesSwitch m
  | .pure a => fun _ _ _ _ => .pure a fun _ h => h
  | .fail e => fun _ _ _ _ => .fail e
  | .carry _ => fun _ _ _ _ ⟨_, _, _, _⟩ _ _ h hr => by cases hr; exact h
  | .bind hm hf => fun b j here frame => (hm.serves b j here frame).bind fun a =>
      (hf a).serves b j here frame
  | .case labels hblock => servesSwitch_case labels fun c => (hblock c).serves
  | .defaultCase hblock => servesSwitch_defaultCase fun c => (hblock c).serves
  | .setFallthrough _ => fun _ _ _ _ => .redraft fun _ h => h
  | .target => fun _ _ _ _ => (Succeeds.draft _).bind fun _ => fun w a w' h hr => by
      cases hr; exact h

end

end Build
end ClassAssembler
