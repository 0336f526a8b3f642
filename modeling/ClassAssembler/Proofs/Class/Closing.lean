import ClassAssembler.Proofs.Class.Members
import ClassAssembler.Proofs.Listing.Replay

/-!
# Closing a class

A class that is closed is handed over as a whole.
-/

namespace ClassAssembler

open List ClassDraft

def MethodDraft.listing (method : MethodDraft) : MethodListing :=
  match method.code with
  | some code => ⟨method.header, code.entries, code.ranges, code.maxLocals⟩
  | none => ⟨method.header, [], [], 0⟩

def MethodDraft.text (method : MethodDraft) : MethodText :=
  (method.code.getD ⟨0, [], []⟩).text method.header

theorem MethodDraft.directives_text (method : MethodDraft) :
    method.text.directives = method.directives := by
  obtain ⟨header, _ | code⟩ := method <;> exact Code.directives_text _ _

theorem MethodDraft.listing_text (method : MethodDraft) : method.text.listing = method.listing := by
  obtain ⟨header, _ | code⟩ := method <;> exact Code.listing_text _ _

theorem MethodDraft.InOrder.sound {method : MethodDraft} (h : method.InOrder) :
    method.text.Sound := by
  rw [MethodText.Sound, listing_text]
  obtain ⟨header, _ | code⟩ := method
  · exact ⟨nodup_nil, fun _ he => (by cases he), fun _ hr => by cases hr⟩
  · exact h.2

theorem Listing.acceptAll_draft {classes : Array ClassListing} {draft : ClassDraft}
    (h : ∀ m ∈ draft.methods.toList, m.InOrder) :
    acceptAll draft.directives ⟨classes, none, none⟩ =
      .ok () ⟨classes.push ⟨draft.header, draft.fields.toList.toArray,
        (draft.methods.toList.map MethodDraft.listing).toArray⟩, none, none⟩ := by
  have hsound : ClassText.Sound ⟨draft.header, draft.fields.toList.map .inl ++
      draft.methods.toList.map fun m => .inr m.text⟩ := by
    intro text htext
    simp only [mem_append, mem_map, reduceCtorEq, and_false, exists_false, false_or,
      Sum.inr.injEq] at htext
    obtain ⟨m, hm, rfl⟩ := htext
    exact (h m hm).sound
  have haccept : acceptAll _ ⟨classes, none, none⟩ = _ := acceptAll_class hsound
  simpa [ClassText.directives, ClassText.opening, ClassText.listing, directives,
    flatMap_map, filterMap_map, Function.comp_def, MethodDraft.directives_text,
    MethodDraft.listing_text, ← map_eq_flatMap,
    filterMap_eq_nil_iff.mpr] using haccept

namespace OrdinalTable

def fieldHeader (table : OrdinalTable) (settings : Settings) : FieldHeader :=
  { name := table.field.name, type := table.field.type, access := settings.tableFieldAccess }

def accessorSpec (table : OrdinalTable) (settings : Settings) : MethodSpec :=
  .plain table.accessor.name table.accessor.type (some settings.tableMethodAccess)

/-- Some code is what the accessor of a table is sealed to in a class. -/
def AccessorCode (header : ClassHeader) (settings : Settings) (table : OrdinalTable) (code : Code) :
    Prop :=
  ∃ (draft : ClassDraft) (before behind : All), draft.header = header ∧ draft.settings = settings ∧
    draft.seal? before (table.accessorSpec settings) table.accessorBody () = some (code, behind)

/-- It is so behind tables that bodies of the class have left. -/
def AccessorLeft (header : ClassHeader) (settings : Settings) (table : OrdinalTable) (code : Code) :
    Prop :=
  ∃ (draft : ClassDraft) (before behind : All), draft.header = header ∧ draft.settings = settings ∧
    ClassDraft.Left before ∧
    draft.seal? before (table.accessorSpec settings) table.accessorBody () = some (code, behind)

theorem AccessorLeft.code {header : ClassHeader} {settings : Settings} {table : OrdinalTable}
    {code : Code} (h : table.AccessorLeft header settings code) :
    table.AccessorCode header settings code := by
  obtain ⟨draft, before, behind, hheader, hsettings, _, hseal⟩ := h
  exact ⟨draft, before, behind, hheader, hsettings, hseal⟩

end OrdinalTable

namespace ClassDraft

variable {draft after : ClassDraft} {table : OrdinalTable}

theorem addTable_eq_ok (h : addTable table draft = .ok () after) :
    ∃ field between method, addField (table.fieldHeader draft.settings) draft = .ok field between ∧
      defineMethod (table.accessorSpec draft.settings) table.accessorBody (between, ()) =
        .ok method (after, ()) := by
  have hstart : addTable table draft = EStateM.bind (EStateM.map (Function.const _ PUnit.unit)
    (addField (table.fieldHeader draft.settings))) _ draft := rfl
  rw [hstart] at h
  unfold EStateM.bind EStateM.map at h
  cases hfield : addField (table.fieldHeader draft.settings) draft with
  | error fault between =>
    rw [hfield] at h
    cases h
  | ok field between =>
    rw [hfield] at h
    dsimp only at h
    split at h
    · next method after' hdefine =>
      cases h
      exact ⟨field, between, method, rfl, hdefine⟩
    · cases h

theorem complete_of_broken (h : draft.broken = true) :
    complete draft = .error (.incompleteClass draft.header.name) draft := by
  cases draft
  cases h
  rfl

theorem complete_of_sound (h : draft.broken = false) :
    complete draft = draft.tables.toList.forM addTable { draft with tables := #[] } := by
  have hlist : draft.tables.forM addTable = draft.tables.toList.forM addTable := by
    rw [Array.forM_eq_forM, ← forM_toArray, Array.toArray_toList]
  rw [← hlist]
  cases draft
  cases h
  rfl

theorem close_of_error {fault : Fault} {listing : Listing}
    (h : complete draft = .error fault after) :
    close (draft, listing) = .error fault (after, listing) := by
  simp only [close, h]

theorem close_of_open {listing : Listing} (h : complete draft = .ok () after)
    (hopen : listing.openClass.isSome) :
    ∃ fault, close (draft, listing) = .error fault (after, listing) := by
  obtain ⟨current, hcurrent⟩ := Option.isSome_iff_exists.mp hopen
  have hrefuse : Listing.acceptAll after.directives listing =
      .error (.misplacedCall .openClass .insideClass) listing := by
    show EStateM.bind (Listing.accept (.openClass after.header)) _ listing = _
    unfold EStateM.bind Listing.accept
    dsimp only
    rw [hcurrent]
  exact ⟨.code (.misplacedCall .openClass .insideClass), by simp only [close, h, hrefuse]⟩

theorem close_of_ok {classes : Array ClassListing}
    (h : complete draft = .ok () after) (hcode : ∀ m ∈ after.methods.toList, m.InOrder) :
    ∃ after', close (draft, ⟨classes, none, none⟩) =
      .ok () (after', ⟨classes.push ⟨after.header, after.fields.toList.toArray,
        (after.methods.toList.map MethodDraft.listing).toArray⟩, none, none⟩) := by
  refine ⟨after.note (.wrote after.header.name after.fields.size after.methods.size), ?_⟩
  simp only [close, h, Listing.acceptAll_draft hcode]

end ClassDraft

namespace Members

variable {header : ClassHeader} {settings : Settings} {draft after : ClassDraft} {made : Members}

def addTables (made : Members) (settings : Settings) (accessors : List (OrdinalTable × Code)) :
    Members :=
  { made with
    fields := made.fields ++ accessors.map fun x => x.1.fieldHeader settings
    methods := made.methods ++ accessors.map fun x =>
      ⟨(x.1.accessorSpec settings).header, some x.2⟩ }

structure Holds (header : ClassHeader) (settings : Settings) (draft : ClassDraft)
    (made : Members) : Prop where
  header : draft.header = header
  settings : draft.settings = settings
  agree : ∃ tables, Agree draft { made with tables }

theorem Holds.addTable (h : Holds header settings draft made) {table : OrdinalTable}
    (hadd : addTable table draft = .ok () after) :
    ∃ code, table.AccessorLeft header settings code ∧
      Holds header settings after (made.addTables settings [(table, code)]) := by
  obtain ⟨tables, hagree⟩ := h.agree
  obtain ⟨field, between, method, hfield, hdefine⟩ := addTable_eq_ok hadd
  rw [h.settings] at hfield hdefine
  rcases addField_cases (table.fieldHeader settings) draft with
    ⟨fault, heq⟩ | ⟨⟨_, heq⟩, hnew⟩
  · rw [hfield] at heq
    cases heq
  rw [hfield] at heq
  cases heq
  have hbetween := hagree.addField hnew
  rcases defineMethod_cases (table.accessorSpec settings) table.accessorBody
      { draft with fields := draft.fields.push (table.fieldHeader settings) } () with
    ⟨fault, _, _, heq, _⟩ | ⟨_, code, tables', notices, _, heq, hseal, hlacks, hmethod⟩
  · rw [hdefine] at heq
    cases heq
  rw [hdefine] at heq
  cases heq
  exact ⟨code, ⟨_, _, _, h.header, h.settings, hagree.tables ▸ hagree.left, hseal⟩, h.header,
    h.settings, tables',
    hbetween.addSealed table.writes_accessorBody hseal hlacks hmethod⟩

theorem Holds.addTables (h : Holds header settings draft made) {tables : List OrdinalTable}
    (hadd : tables.forM ClassDraft.addTable draft = .ok () after) :
    ∃ accessors, accessors.map Prod.fst = tables ∧
      (∀ x ∈ accessors, x.1.AccessorLeft header settings x.2) ∧
      Holds header settings after (made.addTables settings accessors) := by
  induction tables generalizing draft made with
  | nil =>
    cases hadd
    refine ⟨[], rfl, fun _ hx => (by cases hx), ?_⟩
    simpa [Members.addTables] using h
  | cons table tables ih =>
    have hadd : EStateM.bind (ClassDraft.addTable table) (fun _ => tables.forM ClassDraft.addTable)
      draft = .ok () after := hadd
    unfold EStateM.bind at hadd
    cases hfirst : ClassDraft.addTable table draft with
    | error fault between =>
      rw [hfirst] at hadd
      cases hadd
    | ok _ between =>
      rw [hfirst] at hadd
      obtain ⟨code, hcode, hbetween⟩ := h.addTable hfirst
      obtain ⟨accessors, htables, hcodes, hafter⟩ := ih hbetween hadd
      refine ⟨(table, code) :: accessors, by rw [map_cons, htables],
        forall_mem_cons.mpr ⟨hcode, hcodes⟩, ?_⟩
      simpa [Members.addTables] using hafter

theorem Follow.complete (h : Follow header settings draft made) (hok : made.failed = false)
    (hcomplete : complete draft = .ok () after) :
    ∃ accessors, accessors.map Prod.fst = made.tables.toList ∧
      (∀ x ∈ accessors, x.1.AccessorLeft header settings x.2) ∧
      Holds header settings after (made.addTables settings accessors) := by
  have hagree := h.agree hok
  have hstart : Holds header settings { draft with tables := #[] } made :=
    ⟨h.header, h.settings, #[], { hagree with tables := rfl, left := .inl rfl }⟩
  rw [complete_of_sound (h.broken.trans hok), hagree.tables] at hcomplete
  exact hstart.addTables hcomplete

/-- A class is listed with the members that calls have given to it, and those of its tables. -/
structure Listed (given : ClassHeader) (settings : Settings) (made : Members)
    (accessors : List (OrdinalTable × Code)) (listed : ClassListing) : Prop where
  header : listed.header = given
  fields : listed.fields.toList = (made.addTables settings accessors).fields
  methods : listed.methods.toList =
    (made.addTables settings accessors).methods.map MethodDraft.listing
  tables : accessors.map Prod.fst = made.tables.toList
  accessors : ∀ x ∈ accessors, x.1.AccessorCode given settings x.2
  lacking : ∀ method ∈ made.methods, method.code = .none ↔ method.header.access.lacksCode = true
  fieldsApart : listed.fields.toList.Pairwise fun f g => f.name = g.name → f.type ≠ g.type
  methodsApart : listed.methods.toList.Pairwise fun m n =>
    m.header.name = n.header.name → m.header.type ≠ n.header.type

theorem lacking_of_inOrder {method : MethodDraft} (h : method.InOrder) :
    method.code = .none ↔ method.header.access.lacksCode = true := by
  obtain ⟨header, code⟩ := method
  cases code with
  | some code =>
    refine ⟨fun hnone => (by cases hnone), fun hlacks => ?_⟩
    rw [h.1] at hlacks
    cases hlacks
  | none => exact ⟨fun _ => h, fun _ => rfl⟩

theorem header_listing (method : MethodDraft) : method.listing.header = method.header := by
  obtain ⟨header, code⟩ := method
  cases code <;> rfl

theorem Holds.listed {accessors : List (OrdinalTable × Code)}
    (hmade : Follow header settings draft made) (hok : made.failed = false)
    (h : Holds header settings after (made.addTables settings accessors))
    (htables : accessors.map Prod.fst = made.tables.toList)
    (hcodes : ∀ x ∈ accessors, x.1.AccessorLeft header settings x.2) :
    made.Listed header settings accessors ⟨after.header, after.fields.toList.toArray,
      (after.methods.toList.map MethodDraft.listing).toArray⟩ := by
  obtain ⟨tables, hagree⟩ := h.agree
  refine
    { header := h.header
      fields := hagree.fields
      methods := congrArg (List.map MethodDraft.listing) hagree.methods
      tables := htables
      accessors := fun x hx => (hcodes x hx).code
      lacking := fun method hm => lacking_of_inOrder ((hmade.agree hok).inOrder method hm)
      fieldsApart := hagree.fields.symm ▸ hagree.fieldsApart
      methodsApart := ?_ }
  rw [pairwise_map, hagree.methods]
  simp only [header_listing]
  exact hagree.methodsApart

end Members

/-- Closing a class, whatever calls were made for it before, leaves any listing as it was, or
appends the class to it with all that the calls gave to it. It fails only if the members of its
tables cannot be added or another class is open, and always if a body has failed. -/
theorem closing_atomic (serial : Nat) (header : ClassHeader) (settings : Settings)
    (calls : List MemberCall) (classes : Array ClassListing) (directives : List Directive) :
    let draft := (MemberCall.runAll serial header settings calls).1
    let made := (MemberCall.runAll serial header settings calls).2
    let listing := Listing.after ⟨classes, none, none⟩ directives
    ((∃ fault after, close (draft, listing) = .error fault (after, listing) ∧
        (listing.openClass.isSome ∨ (made.failed = true ∨ made.tables ≠ #[]) ∧
          ∃ failed, complete draft = .error fault failed)) ∨
      made.failed = false ∧ ∃ after accessors listed,
        close (draft, listing) =
          .ok () (after, { listing with classes := listing.classes.push listed }) ∧
        made.Listed header settings accessors listed) ∧
    (made.failed = true → ∃ after, close (draft, listing) =
      .error (.incompleteClass header.name) (after, listing)) := by
  intro draft made listing
  have hfollow : Members.Follow header settings draft made :=
    Members.follow_runAll serial header settings calls
  have hnested : listing.Nested := Listing.nested_after (fun _ => rfl) directives
  clear_value draft made listing
  cases hfailed : made.failed with
  | true =>
    have hcomplete : complete draft = .error (.incompleteClass header.name) draft :=
      hfollow.header ▸ complete_of_broken (hfollow.broken.trans hfailed)
    have hclose : close (draft, listing) = .error _ (draft, listing) :=
      close_of_error hcomplete
    exact ⟨.inl ⟨_, _, hclose, .inr ⟨.inl rfl, _, hcomplete⟩⟩, fun _ => ⟨_, hclose⟩⟩
  | false =>
    refine ⟨?_, fun h => by cases h⟩
    cases hcomplete : complete draft with
    | error fault after =>
      refine .inl ⟨_, _, close_of_error hcomplete, .inr ⟨.inr fun htables => ?_, _, rfl⟩⟩
      rw [complete_of_sound (hfollow.broken.trans hfailed), (hfollow.agree hfailed).tables,
        htables] at hcomplete
      cases hcomplete
    | ok _ after =>
      cases hopen : listing.openClass.isSome with
      | true =>
        obtain ⟨fault, hclose⟩ := close_of_open hcomplete hopen
        exact .inl ⟨fault, after, hclose, .inl rfl⟩
      | false =>
        have hnone : listing.openClass = none := by simpa using hopen
        have hclosed : listing = ⟨listing.classes, none, none⟩ := by rw [← hnone, ← hnested hnone]
        obtain ⟨accessors, htables, hcodes, hholds⟩ := hfollow.complete hfailed hcomplete
        obtain ⟨tables, hagree⟩ := hholds.agree
        obtain ⟨after', hclose⟩ := close_of_ok hcomplete
          fun method hm => hagree.inOrder method (hagree.methods ▸ hm)
        refine .inr ⟨rfl, after', accessors, _, ?_, hholds.listed hfollow hfailed htables hcodes⟩
        rw [hclosed]
        exact hclose

end ClassAssembler
