import ClassAssembler.ClassDraft
import ClassAssembler.Proofs.Build.Accessor
import ClassAssembler.Proofs.Layout.Sealing

/-!
# The members of a class

A class gets its members by calls that may fail.
-/

namespace ClassAssembler

open List ClassDraft

/-- The calls that give a class its members. A body is built by any program of builder calls. -/
inductive MemberCall : Type 1
  | field (header : FieldHeader)
  | declare (spec : MethodSpec)
  | body {σ : Type} (spec : MethodSpec) (block : Block σ) (carried : σ)
      (writes : Build.Writes σ 0 Unit (block 0))

/-- What calls have given to a class. -/
structure Members where
  fields : List FieldHeader
  methods : List MethodDraft
  tables : OrdinalTable.All
  failed : Bool

namespace ClassDraft

variable {σ : Type}

def seal? (draft : ClassDraft) (tables : OrdinalTable.All) (spec : MethodSpec) (block : Block σ)
    (carried : σ) : Option (Code × OrdinalTable.All) :=
  match Body.start ⟨draft.serial, draft.bodies⟩ (draft.methodRef spec) spec.header.access
      draft.header.superClass draft.settings tables with
  | .error _ => none
  | .ok body =>
      match block 0 ⟨body, carried⟩ with
      | .error _ _ => none
      | .ok () work =>
          match work.body.toCode with
          | .error _ => none
          | .ok (code, _) => some (code, work.body.tables)

end ClassDraft

namespace Members

def none : Members := ⟨[], [], #[], false⟩

def addField (made : Members) (header : FieldHeader) : Members :=
  { made with fields := made.fields ++ [header] }

def addMethod (made : Members) (header : MethodHeader) (code : Option Code) : Members :=
  { made with methods := made.methods ++ [⟨header, code⟩] }

def addBody {σ : Type} (made : Members) (draft : ClassDraft) (spec : MethodSpec) (block : Block σ)
    (carried : σ) : Members :=
  match draft.seal? made.tables spec block carried with
  | some (code, tables) => { made.addMethod spec.header (some code) with tables }
  | .none => { made with failed := true }

end Members

open ClassDraft in
def MemberCall.run (call : MemberCall) (draft : ClassDraft) (made : Members) :
    ClassDraft × Members :=
  match call with
  | .field header =>
      match addField header draft with
      | .ok _ draft => (draft, made.addField header)
      | .error _ draft => (draft, made)
  | .declare spec =>
      match declareMethod spec draft with
      | .ok _ draft => (draft, made.addMethod spec.header none)
      | .error _ draft => (draft, made)
  | .body spec block carried _ =>
      match defineMethod spec block (draft, carried) with
      | .ok _ (after, _) => (after, made.addBody draft spec block carried)
      | .error _ (after, _) => (after, { made with failed := true })

def MemberCall.runAll (serial : Nat) (header : ClassHeader) (settings : Settings)
    (calls : List MemberCall) : ClassDraft × Members :=
  calls.foldl (fun (draft, made) call => call.run draft made) (.start serial header settings, .none)

namespace ClassDraft

variable {σ : Type} {draft : ClassDraft}

theorem addField_cases (header : FieldHeader) (draft : ClassDraft) :
    (∃ fault, addField header draft = .error fault draft) ∨
      (∃ field, addField header draft =
        .ok field { draft with fields := draft.fields.push header }) ∧
      ∀ known ∈ draft.fields.toList, known.name = header.name → known.type ≠ header.type := by
  unfold addField
  split
  · exact .inl ⟨_, rfl⟩
  · next hnone =>
    refine .inr ⟨⟨_, rfl⟩, fun known hknown hname htype => ?_⟩
    unfold fieldFault? at hnone
    split at hnone
    · cases hnone
    · split at hnone
      · cases hnone
      · next hany =>
        refine hany (Array.any_eq_true'.mpr ⟨known, Array.mem_toList_iff.mp hknown, ?_⟩)
        simp [hname, htype]

theorem hasMethod_iff (header : MethodHeader) : draft.hasMethod header = true ↔
    ∃ known ∈ draft.methods.toList, known.header.name = header.name ∧
      known.header.type = header.type := by
  rw [hasMethod, Array.any_eq_true']
  simp

theorem duplicateFault?_eq_none {header : MethodHeader} (h : draft.duplicateFault? header = none) :
    draft.hasMethod header = false := by
  unfold duplicateFault? at h
  split at h
  · cases h
  · next hhas => simpa using hhas

theorem declareMethod_cases (spec : MethodSpec) (draft : ClassDraft) :
    (∃ fault, declareMethod spec draft = .error fault draft) ∨
      (∃ method, declareMethod spec draft = .ok method (draft.addMethod spec.header none)) ∧
      spec.header.access.lacksCode = true ∧ draft.hasMethod spec.header = false := by
  unfold declareMethod
  split
  · exact .inl ⟨_, rfl⟩
  · next hnone =>
    refine .inr ⟨⟨_, rfl⟩, ?_⟩
    unfold declareFault? at hnone
    split at hnone
    · cases hnone
    · next hlacks =>
      split at hnone
      · cases hnone
      · exact ⟨by simpa using hlacks, duplicateFault?_eq_none hnone⟩

theorem defineFault?_eq_none {spec : MethodSpec} (h : draft.defineFault? spec = none) :
    spec.header.access.lacksCode = false ∧ draft.hasMethod spec.header = false := by
  unfold defineFault? at h
  split at h
  · cases h
  · next hlacks =>
    split at h
    · cases h
    · exact ⟨by simpa using hlacks, duplicateFault?_eq_none h⟩

theorem buildCode_cases (spec : MethodSpec) (block : Block σ) (draft : ClassDraft) (carried : σ) :
    (∃ fault after carried', buildCode spec block (draft, carried) =
        .error fault (after, carried') ∧ after.header = draft.header ∧
      after.settings = draft.settings ∧ (after.tables = draft.tables ∨ after.tables = #[])) ∨
    ∃ code tables notices carried', buildCode spec block (draft, carried) =
        .ok code ({ draft with tables, bodies := draft.bodies + 1, notices }, carried') ∧
      draft.seal? draft.tables spec block carried = some (code, tables) ∧
      spec.header.access.lacksCode = false ∧ draft.hasMethod spec.header = false := by
  cases hfault : draft.defineFault? spec with
  | some fault =>
    refine .inl ⟨fault, draft, carried, ?_, rfl, rfl, .inl rfl⟩
    simp only [buildCode, hfault]
  | none =>
    cases hstart : Body.start ⟨draft.serial, draft.bodies⟩ (draft.methodRef spec)
        spec.header.access draft.header.superClass draft.settings draft.tables with
    | error fault =>
      refine .inl ⟨fault, { draft with tables := #[], bodies := draft.bodies + 1 }, carried, ?_,
        rfl, rfl, .inr rfl⟩
      simp only [buildCode, hfault, startBody, hstart]
    | ok body =>
      cases hblock : block 0 ⟨body, carried⟩ with
      | error fault work =>
        refine .inl ⟨fault, { draft with
          tables := #[], bodies := draft.bodies + 1, notices :=
            draft.notices ++ work.body.notices },
          work.carried, ?_, rfl, rfl, .inr rfl⟩
        simp only [buildCode, hfault, startBody, hstart, hblock]
      | ok _ work =>
        cases hcode : work.body.toCode with
        | error fault =>
          refine .inl ⟨fault, { draft with
            tables := #[], bodies := draft.bodies + 1,
            notices := draft.notices ++ work.body.notices }, work.carried, ?_, rfl, rfl, .inr rfl⟩
          simp only [buildCode, hfault, startBody, hstart, hblock, hcode]
        | ok sealed =>
          refine .inr ⟨sealed.1, work.body.tables,
            (draft.notices ++ work.body.notices).push sealed.2, work.carried, ?_, ?_,
            defineFault?_eq_none hfault⟩
          · simp only [buildCode, hfault, startBody, hstart, hblock, hcode, note]
          · simp only [seal?, hstart, hblock, hcode]

theorem defineMethod_cases (spec : MethodSpec) (block : Block σ) (draft : ClassDraft)
    (carried : σ) :
    (∃ fault after carried', defineMethod spec block (draft, carried) =
        .error fault (after, carried') ∧
      after.header = draft.header ∧ after.settings = draft.settings ∧ after.broken = true ∧
      (after.tables = draft.tables ∨ after.tables = #[])) ∨
    ∃ method code tables notices carried', defineMethod spec block (draft, carried) =
        .ok method (addMethod spec.header (some code)
          { draft with tables, bodies := draft.bodies + 1, notices }, carried') ∧
      draft.seal? draft.tables spec block carried = some (code, tables) ∧
      spec.header.access.lacksCode = false ∧ draft.hasMethod spec.header = false := by
  unfold defineMethod
  rcases buildCode_cases spec block draft carried with
    ⟨fault, after, carried', hbuild, hheader, hsettings, htables⟩ |
    ⟨code, tables, notices, carried', hbuild, hseal⟩
  · refine .inl ⟨fault, { after.note (.failed (draft.methodRef spec) fault) with broken := true },
      carried', ?_, hheader, hsettings, rfl, htables⟩
    simp only [hbuild]
  · refine .inr ⟨draft.methodRef spec, code, tables, notices, carried', ?_, hseal⟩
    simp only [hbuild]

def Left (tables : OrdinalTable.All) : Prop :=
  tables = #[] ∨ ∃ b : Body, b.Built ∧ b.tables = tables

theorem seal?_eq_some_iff {tables tables' : OrdinalTable.All} {spec : MethodSpec} {block : Block σ}
    {carried : σ} {code : Code} :
    draft.seal? tables spec block carried = some (code, tables') ↔
      ∃ body work notice, Body.start ⟨draft.serial, draft.bodies⟩ (draft.methodRef spec)
          spec.header.access draft.header.superClass draft.settings tables = .ok body ∧
        block 0 ⟨body, carried⟩ = .ok () work ∧ work.body.toCode = .ok (code, notice) ∧
        work.body.tables = tables' := by
  refine ⟨fun h => ?_, ?_⟩
  · unfold seal? at h
    split at h
    · cases h
    · next body hstart =>
      split at h
      · cases h
      · next work hblock =>
        split at h
        · cases h
        · next code' notice hcode =>
          cases h
          exact ⟨body, work, notice, hstart, hblock, hcode, rfl⟩
  · rintro ⟨body, work, notice, hstart, hblock, hcode, rfl⟩
    simp only [seal?, hstart, hblock, hcode]

theorem seal?_built {tables tables' : OrdinalTable.All} {spec : MethodSpec} {block : Block σ}
    {carried : σ} {code : Code} (h : draft.seal? tables spec block carried = some (code, tables'))
    (hleft : Left tables) (hwrites : Build.Writes σ 0 Unit (block 0)) :
    ∃ (body : Body) (work : Work σ) (notice : Notice), Body.start ⟨draft.serial, draft.bodies⟩
        (draft.methodRef spec) spec.header.access draft.header.superClass draft.settings tables =
          .ok body ∧
      block 0 ⟨body, carried⟩ = .ok () work ∧ work.body.Built ∧
      work.body.toCode = .ok (code, notice) ∧ work.body.tables = tables' := by
  obtain ⟨body, work, notice, hstart, hblock, hcode, rfl⟩ := seal?_eq_some_iff.mp h
  have hbegins : Body.Begins tables body := ⟨_, _, _, _, _, hstart⟩
  refine ⟨body, work, notice, hstart, hblock, ?_, hcode, rfl⟩
  rw [← Build.after_of_ok hblock]
  rcases hleft with rfl | ⟨b, hb, rfl⟩
  · exact .first hbegins hwrites
  · exact .next hb hbegins hwrites

end ClassDraft

def MethodDraft.InOrder (method : MethodDraft) : Prop :=
  match method.code with
  | some code => method.header.access.lacksCode = false ∧ WellPlaced code.entries code.ranges
  | none => method.header.access.lacksCode = true

namespace Members

/-- A draft and what calls have given to it, as long as no body has failed. -/
structure Agree (draft : ClassDraft) (made : Members) : Prop where
  fields : draft.fields.toList = made.fields
  methods : draft.methods.toList = made.methods
  tables : draft.tables = made.tables
  left : ClassDraft.Left made.tables
  inOrder : ∀ method ∈ made.methods, method.InOrder
  fieldsApart : made.fields.Pairwise fun f g => f.name = g.name → f.type ≠ g.type
  methodsApart : made.methods.Pairwise fun m n =>
    m.header.name = n.header.name → m.header.type ≠ n.header.type

structure Follow (header : ClassHeader) (settings : Settings) (draft : ClassDraft)
    (made : Members) : Prop where
  header : draft.header = header
  settings : draft.settings = settings
  broken : draft.broken = made.failed
  agree : made.failed = false → Agree draft made

theorem follow_start (serial : Nat) (header : ClassHeader) (settings : Settings) :
    Follow header settings (.start serial header settings) none where
  header := rfl
  settings := rfl
  broken := rfl
  agree _ :=
    { fields := rfl
      methods := rfl
      tables := rfl
      left := .inl rfl
      inOrder := fun _ h => by cases h
      fieldsApart := .nil
      methodsApart := .nil }

variable {header : ClassHeader} {settings : Settings} {draft : ClassDraft} {made : Members}

theorem Agree.addField (h : Agree draft made) {field : FieldHeader}
    (hnew : ∀ known ∈ draft.fields.toList, known.name = field.name → known.type ≠ field.type) :
    Agree { draft with fields := draft.fields.push field } (made.addField field) := by
  refine { h with fields := ?_, fieldsApart := ?_ }
  · show (draft.fields.push field).toList = made.fields ++ [field]
    rw [Array.toList_push, h.fields]
  · refine pairwise_append.mpr ⟨h.fieldsApart, pairwise_singleton _ _, ?_⟩
    intro known hknown g hg
    rw [mem_singleton.mp hg]
    exact hnew known (h.fields ▸ hknown)

theorem Agree.addMethod (h : Agree draft made) {header : MethodHeader} {code : Option Code}
    (hnew : draft.hasMethod header = false) (hcode : MethodDraft.InOrder ⟨header, code⟩) :
    Agree (draft.addMethod header code) (made.addMethod header code) := by
  refine { h with methods := ?_, inOrder := ?_, methodsApart := ?_ }
  · show (draft.methods.push ⟨header, code⟩).toList = made.methods ++ [⟨header, code⟩]
    rw [Array.toList_push, h.methods]
  · intro method hmethod
    rcases mem_append.mp hmethod with hmethod | hmethod
    · exact h.inOrder method hmethod
    · rw [mem_singleton.mp hmethod]
      exact hcode
  · refine pairwise_append.mpr ⟨h.methodsApart, pairwise_singleton _ _, ?_⟩
    intro known hknown m hm hname htype
    rw [mem_singleton.mp hm] at hname htype
    have hhas := (hasMethod_iff header).mpr ⟨known, h.methods ▸ hknown, hname, htype⟩
    rw [hnew] at hhas
    cases hhas

theorem Agree.addSealed (h : Agree draft made) {σ : Type} {spec : MethodSpec} {block : Block σ}
    {carried : σ} (hwrites : Build.Writes σ 0 Unit (block 0)) {code : Code}
    {tables : OrdinalTable.All} {bodies : Nat} {notices : Array Notice}
    (hseal : draft.seal? draft.tables spec block carried = some (code, tables))
    (hlacks : spec.header.access.lacksCode = false) (hnew : draft.hasMethod spec.header = false) :
    Agree (ClassDraft.addMethod spec.header (some code) { draft with tables, bodies, notices })
      { made.addMethod spec.header (some code) with tables } := by
  obtain ⟨_, work, notice, _, _, hb, hcode, rfl⟩ :=
    seal?_built hseal (h.tables ▸ h.left) hwrites
  have hplaced : WellPlaced code.entries code.ranges := hb.finished.wellPlaced hcode
  have hadded : Agree (draft.addMethod spec.header (some code))
      (made.addMethod spec.header (some code)) := h.addMethod hnew ⟨hlacks, hplaced⟩
  exact { hadded with tables := rfl, left := .inr ⟨_, hb, rfl⟩ }

theorem failed_addBody {σ : Type} {spec : MethodSpec} {block : Block σ} {carried : σ}
    (h : made.failed = true) : (made.addBody draft spec block carried).failed = true := by
  unfold addBody
  split
  · exact h
  · rfl

theorem Follow.run (h : Follow header settings draft made) (call : MemberCall) :
    Follow header settings (call.run draft made).1 (call.run draft made).2 := by
  cases call with
  | field field =>
    rcases addField_cases field draft with ⟨fault, hadd⟩ | ⟨⟨ref, hadd⟩, hnew⟩
    · simp only [MemberCall.run, hadd]
      exact h
    · simp only [MemberCall.run, hadd]
      exact ⟨h.header, h.settings, h.broken, fun hok => (h.agree hok).addField hnew⟩
  | declare spec =>
    rcases declareMethod_cases spec draft with
      ⟨fault, hadd⟩ | ⟨⟨ref, hadd⟩, hlacks, hnew⟩
    · simp only [MemberCall.run, hadd]
      exact h
    · simp only [MemberCall.run, hadd]
      exact ⟨h.header, h.settings, h.broken, fun hok => (h.agree hok).addMethod hnew hlacks⟩
  | body spec block carried hwrites =>
    rcases defineMethod_cases spec block draft carried with
      ⟨fault, after, carried', hadd, hheader, hsettings, hbroken, _⟩ |
      ⟨ref, code, tables, notices, carried', hadd, hseal, hlacks, hnew⟩
    · simp only [MemberCall.run, hadd]
      exact ⟨hheader.trans h.header, hsettings.trans h.settings, hbroken, fun hok => by cases hok⟩
    · simp only [MemberCall.run, hadd]
      cases hfailed : made.failed with
      | true =>
        refine ⟨h.header, h.settings, ?_, fun hok => ?_⟩
        · exact h.broken.trans (hfailed.trans (failed_addBody hfailed).symm)
        · rw [failed_addBody hfailed] at hok
          cases hok
      | false =>
        have hagree := h.agree hfailed
        have hsealed : draft.seal? made.tables spec block carried = some (code, tables) :=
          hagree.tables ▸ hseal
        simp only [addBody, hsealed]
        exact ⟨h.header, h.settings, h.broken, fun _ => hagree.addSealed hwrites hseal hlacks hnew⟩

theorem follow_runAll (serial : Nat) (header : ClassHeader) (settings : Settings)
    (calls : List MemberCall) : Follow header settings
      (MemberCall.runAll serial header settings calls).1
      (MemberCall.runAll serial header settings calls).2 := by
  unfold MemberCall.runAll
  have hstart := follow_start serial header settings
  generalize start serial header settings = draft at hstart
  generalize none = made at hstart
  induction calls generalizing draft made with
  | nil => exact hstart
  | cons call calls ih => exact ih _ _ (hstart.run call)

end Members
end ClassAssembler
