import ClassAssembler.Listing.Basic
import ClassAssembler.Proofs.Code.Paths

/-!
# Writing classes into a listing

What is written of a class is its text: fields and methods in any order, and in a method entries
and exception ranges in any order.
-/

namespace ClassAssembler

open Entry

structure MethodText where
  header : MethodHeader
  items : List (Entry ⊕ ExceptionRange)
  maxLocals : UInt16

namespace MethodText

def written (items : List (Entry ⊕ ExceptionRange)) : List Directive :=
  items.map (Sum.elim .entry .exceptionRange)

def directives (method : MethodText) : List Directive :=
  .openMethod method.header :: (written method.items ++ [.closeMethod method.maxLocals])

def listing (method : MethodText) : MethodListing :=
  ⟨method.header, method.items.filterMap Sum.getLeft?, method.items.filterMap Sum.getRight?,
    method.maxLocals⟩

def labels (items : List (Entry ⊕ ExceptionRange)) : List Label :=
  (items.filterMap Sum.getLeft?).filterMap label?

theorem labels_append (items more : List (Entry ⊕ ExceptionRange)) :
    labels (items ++ more) = labels items ++ labels more := by
  simp [labels]

/-- No label is placed twice, and those that are used are placed. -/
def Sound (method : MethodText) : Prop := WellPlaced method.listing.entries method.listing.ranges

def used (items : List (Entry ⊕ ExceptionRange)) : List Label :=
  (items.filterMap Sum.getLeft?).flatMap targets ++
    (items.filterMap Sum.getRight?).flatMap ExceptionRange.labels

theorem sound_iff {method : MethodText} : method.Sound ↔
    (labels method.items).Nodup ∧ ∀ l ∈ used method.items, l ∈ labels method.items := by
  refine ⟨fun h => ⟨h.nodup, fun l hl => ?_⟩, fun h => ⟨h.1, fun e he l hl => h.2 l ?_,
    fun range hr l hl => h.2 l ?_⟩⟩
  · rcases List.mem_append.mp hl with hl | hl
    · obtain ⟨e, he, hl⟩ := List.mem_flatMap.mp hl
      exact h.targets e he l hl
    · obtain ⟨range, hrange, hl⟩ := List.mem_flatMap.mp hl
      exact h.ranges range hrange l hl
  · exact List.mem_append_left _ (List.mem_flatMap.mpr ⟨e, he, hl⟩)
  · exact List.mem_append_right _ (List.mem_flatMap.mpr ⟨range, hr, hl⟩)

end MethodText

structure ClassText where
  header : ClassHeader
  members : List (FieldHeader ⊕ MethodText)

namespace ClassText

def opening (text : ClassText) : List Directive :=
  .openClass text.header ::
    text.members.flatMap (Sum.elim (fun field => [.field field]) MethodText.directives)

def directives (text : ClassText) : List Directive := text.opening ++ [.closeClass]

def listing (text : ClassText) : ClassListing :=
  ⟨text.header, (text.members.filterMap Sum.getLeft?).toArray,
    ((text.members.filterMap Sum.getRight?).map MethodText.listing).toArray⟩

def Sound (text : ClassText) : Prop := ∀ method, .inr method ∈ text.members → method.Sound

end ClassText

namespace OpenMethod

def labels (method : OpenMethod) : List Label := method.entries.toList.filterMap label?

/-- The set of placed labels is that of the labels that stand in the entries. -/
def Tracks (method : OpenMethod) : Prop :=
  ∀ l, method.placed.contains l = true ↔ l ∈ method.labels

def take (method : OpenMethod) : Entry ⊕ ExceptionRange → OpenMethod
  | .inl (.label l) =>
      { method with entries := method.entries.push (.label l), placed := method.placed.insert l }
  | .inl e => { method with entries := method.entries.push e }
  | .inr range => { method with ranges := method.ranges.push range }

def holding (header : MethodHeader) (items : List (Entry ⊕ ExceptionRange)) : OpenMethod :=
  items.foldl take (.start header)

variable {header : MethodHeader} {items : List (Entry ⊕ ExceptionRange)}

theorem close_foldl (method : OpenMethod) (maxLocals : UInt16) :
    (items.foldl take method).close maxLocals = ⟨method.header,
      method.entries.toList ++ items.filterMap Sum.getLeft?,
      method.ranges.toList ++ items.filterMap Sum.getRight?, maxLocals⟩ := by
  induction items generalizing method with
  | nil => simp [close]
  | cons item items ih =>
    rw [List.foldl_cons, ih]
    rcases item with (l | i | b) | range <;>
      simp [take, List.filterMap_cons]

theorem close_holding (maxLocals : UInt16) :
    (holding header items).close maxLocals = (MethodText.mk header items maxLocals).listing := by
  simp [holding, close_foldl, start, MethodText.listing]

theorem labels_holding : (holding header items).labels = MethodText.labels items :=
  congrArg (fun listing : MethodListing => listing.entries.filterMap label?)
    (close_holding 0)

theorem used_holding : (holding header items).used = MethodText.used items :=
  congrArg (fun listing : MethodListing => listing.entries.flatMap targets ++
    listing.ranges.flatMap ExceptionRange.labels) (close_holding 0)

theorem Tracks.take {method : OpenMethod} (h : method.Tracks) (item : Entry ⊕ ExceptionRange) :
    (method.take item).Tracks := by
  intro l
  have hl := h l
  unfold labels at hl ⊢
  rcases item with (l' | i | b) | range
  · simp [OpenMethod.take, label?, hl, or_comm, @eq_comm _ l']
  · simpa [OpenMethod.take, label?] using hl
  · simpa [OpenMethod.take, label?] using hl
  · exact hl

theorem tracks_holding : (holding header items).Tracks := by
  suffices ∀ {method : OpenMethod}, method.Tracks → (items.foldl take method).Tracks from
    this fun l => by simp [start, labels]
  induction items with
  | nil => exact id
  | cons item items ih => exact fun h => ih (h.take item)

end OpenMethod

namespace Listing

open OpenMethod

theorem acceptAll_cons {d : Directive} {ds : List Directive} {listing listing' : Listing}
    (h : accept d listing = .ok () listing') :
    acceptAll (d :: ds) listing = acceptAll ds listing' := by
  show EStateM.bind (accept d) (fun _ => acceptAll ds) listing = _
  rw [EStateM.bind, h]

theorem exists_of_acceptAll_cons {d : Directive} {ds : List Directive} {listing listing' : Listing}
    (h : acceptAll (d :: ds) listing = .ok () listing') :
    ∃ mid, accept d listing = .ok () mid ∧ acceptAll ds mid = .ok () listing' := by
  have h : EStateM.bind (accept d) (fun _ => acceptAll ds) listing = _ := h
  cases hd : accept d listing with
  | ok _ mid => exact ⟨mid, rfl, by rw [← h, EStateM.bind, hd]⟩
  | error fault mid =>
    rw [EStateM.bind, hd] at h
    cases h

theorem acceptAll_append {ds es : List Directive} {listing listing' : Listing}
    (h : acceptAll ds listing = .ok () listing') :
    acceptAll (ds ++ es) listing = acceptAll es listing' := by
  induction ds generalizing listing with
  | nil =>
    cases h
    rfl
  | cons d ds ih =>
    obtain ⟨mid, hd, hds⟩ := exists_of_acceptAll_cons h
    rw [List.cons_append, acceptAll_cons hd, ih hds]

variable {classes : Array ClassListing} {current : ClassListing} {header : MethodHeader}
  {items : List (Entry ⊕ ExceptionRange)}

theorem accept_entry_iff {openClass : Option ClassListing} {method : OpenMethod}
    (h : method.Tracks) {e : Entry} {listing : Listing} :
    accept (.entry e) ⟨classes, openClass, some method⟩ = .ok () listing ↔
      (∀ l, e.label? = some l → l ∉ method.labels) ∧
        listing = ⟨classes, openClass, some (method.take (.inl e))⟩ := by
  unfold accept onMethod
  cases e with
  | label l =>
    have hl := h l
    cases hin : method.placed.contains l <;>
      simp_all [writeEntry, label?, take, @eq_comm _ listing]
  | insn i => simp [writeEntry, label?, take, @eq_comm _ listing]
  | branch b => simp [writeEntry, label?, take, @eq_comm _ listing]

theorem accept_closeMethod_iff {method : OpenMethod} (h : method.Tracks) {maxLocals : UInt16}
    {listing : Listing} :
    accept (.closeMethod maxLocals) ⟨classes, some current, some method⟩ = .ok () listing ↔
      (∀ l ∈ method.used, l ∈ method.labels) ∧ listing = ⟨classes,
        some { current with methods := current.methods.push (method.close maxLocals) }, none⟩ := by
  have hplaced : (∀ l ∈ method.used, l ∈ method.labels) ↔
      method.used.find? (!method.placed.contains ·) = none := by
    simp [List.find?_eq_none, ← h _]
  rw [hplaced, accept, closeMethod]
  cases method.used.find? (!method.placed.contains ·) <;>
    simp [onClass, currentClass, @eq_comm _ listing]

theorem acceptAll_written {pre : List (Entry ⊕ ExceptionRange)}
    (h : (MethodText.labels (pre ++ items)).Nodup) :
    acceptAll (MethodText.written items) ⟨classes, some current, some (holding header pre)⟩ =
      .ok () ⟨classes, some current, some (holding header (pre ++ items))⟩ := by
  induction items generalizing pre with
  | nil =>
    rw [List.append_nil]
    rfl
  | cons item items ih =>
    have hnext : holding header (pre ++ [item]) = (holding header pre).take item := by
      simp [holding]
    have haccept : accept (Sum.elim .entry .exceptionRange item)
        ⟨classes, some current, some (holding header pre)⟩ =
        .ok () ⟨classes, some current, some (holding header (pre ++ [item]))⟩ := by
      cases item with
      | inl e =>
        refine (accept_entry_iff tracks_holding).mpr ⟨fun l hl hin => ?_, by rw [hnext]⟩
        rw [labels_holding] at hin
        rw [MethodText.labels_append] at h
        simp only [MethodText.labels, List.filterMap_cons, Sum.getLeft?, hl] at h
        exact (List.nodup_append.mp h).2.2 l hin l (.head ..) rfl
      | inr range =>
        rw [hnext]
        rfl
    rw [List.append_cons] at h ⊢
    exact (acceptAll_cons haccept).trans (ih h)

theorem acceptAll_method {text : MethodText} (h : text.Sound) :
    acceptAll text.directives ⟨classes, some current, none⟩ = .ok () ⟨classes,
      some { current with methods := current.methods.push text.listing }, none⟩ := by
  have hopen : accept (.openMethod text.header) ⟨classes, some current, none⟩ =
      .ok () ⟨classes, some current, some (holding text.header [])⟩ := rfl
  have hused : ∀ l ∈ (holding text.header text.items).used,
      l ∈ (holding text.header text.items).labels := by
    rw [labels_holding, used_holding]
    exact (MethodText.sound_iff.mp h).2
  rw [MethodText.directives, acceptAll_cons hopen,
    acceptAll_append (@acceptAll_written _ _ _ _ [] h.nodup), List.nil_append,
    acceptAll_cons ((accept_closeMethod_iff tracks_holding).mpr ⟨hused, rfl⟩),
    close_holding]
  rfl

theorem acceptAll_members {members : List (FieldHeader ⊕ MethodText)}
    (h : ∀ method, .inr method ∈ members → method.Sound) :
    acceptAll (members.flatMap (Sum.elim (fun field => [.field field]) MethodText.directives))
        ⟨classes, some current, none⟩ =
      .ok () ⟨classes, some { current with
        fields := current.fields ++ members.filterMap Sum.getLeft?
        methods := current.methods ++ (members.filterMap Sum.getRight?).map MethodText.listing },
        none⟩ := by
  induction members generalizing current with
  | nil => simp [acceptAll, pure, EStateM.pure]
  | cons member members ih =>
    have ih {current} := @ih current fun method hm => h method (.tail _ hm)
    cases member with
    | inl field =>
      have haccept : accept (.field field) ⟨classes, some current, none⟩ =
          .ok () ⟨classes, some { current with fields := current.fields.push field }, none⟩ := rfl
      refine (acceptAll_cons haccept).trans (ih.trans ?_)
      simp [List.filterMap_cons]
    | inr method =>
      rw [List.flatMap_cons, Sum.elim_inr,
        acceptAll_append (acceptAll_method (h method (.head ..))), ih]
      simp [List.filterMap_cons]

theorem acceptAll_class {text : ClassText} (h : text.Sound) :
    acceptAll text.directives ⟨classes, none, none⟩ =
      .ok () ⟨classes.push text.listing, none, none⟩ := by
  have hopen : accept (.openClass text.header) ⟨classes, none, none⟩ =
      .ok () ⟨classes, some ⟨text.header, #[], #[]⟩, none⟩ := rfl
  rw [ClassText.directives, ClassText.opening, List.cons_append, acceptAll_cons hopen,
    acceptAll_append (acceptAll_members h)]
  simp [acceptAll, accept, onClass, currentClass, bind, EStateM.bind, pure, EStateM.pure,
    ClassText.listing]

def behind (step : EStateM CodeFault Listing Unit) (listing : Listing) : Listing :=
  match step listing with
  | .ok _ listing => listing
  | .error _ listing => listing

def after (listing : Listing) (directives : List Directive) : Listing :=
  directives.foldl (fun listing directive => behind (accept directive) listing) listing

/-- A method is open only inside a class. -/
def Nested (listing : Listing) : Prop := listing.openClass = none → listing.openMethod = none

theorem writeEntry_cases (e : Entry) (method : OpenMethod) :
    (∃ method', writeEntry e method = .ok () method') ∨
      ∃ l, writeEntry e method = .error (.duplicateLabel l) method := by
  unfold writeEntry
  split
  · next l =>
    split
    · exact .inr ⟨l, rfl⟩
    · exact .inl ⟨_, rfl⟩
  · exact .inl ⟨_, rfl⟩

theorem Nested.accept_cases {listing : Listing} (h : listing.Nested) (directive : Directive) :
    (∃ next, accept directive listing = .ok () next ∧ next.Nested) ∨
    (∃ fault, accept directive listing = .error fault listing ∧ ∀ l, fault ≠ .unplacedTarget l) ∨
    ∃ method, listing.openMethod = some method ∧ ∃ l ∈ method.used,
      method.placed.contains l = false ∧
        accept directive listing = .error (.unplacedTarget l)
          { listing with openMethod := none } := by
  obtain ⟨classes, openClass, openMethod⟩ := listing
  cases openClass with
  | none =>
    cases h rfl
    cases directive with
    | openClass header => exact .inl ⟨_, rfl, fun hnone => by cases hnone⟩
    | _ => exact .inr (.inl ⟨_, rfl, fun l hl => by cases hl⟩)
  | some current =>
    cases openMethod with
    | none =>
      cases directive with
      | field header => exact .inl ⟨_, rfl, fun hnone => by cases hnone⟩
      | openMethod header => exact .inl ⟨_, rfl, fun hnone => by cases hnone⟩
      | closeClass => exact .inl ⟨_, rfl, fun _ => rfl⟩
      | _ => exact .inr (.inl ⟨_, rfl, fun l hl => by cases hl⟩)
    | some method =>
      cases directive with
      | exceptionRange range => exact .inl ⟨_, rfl, fun hnone => by cases hnone⟩
      | entry e =>
        unfold accept onMethod
        dsimp only
        rcases writeEntry_cases e method with ⟨method', hwrite⟩ | ⟨l, hwrite⟩
        · rw [hwrite]
          exact .inl ⟨_, rfl, fun hnone => by cases hnone⟩
        · rw [hwrite]
          exact .inr (.inl ⟨_, rfl, fun l hl => by cases hl⟩)
      | closeMethod maxLocals =>
        unfold accept closeMethod
        dsimp only
        cases hfind : method.used.find? (!method.placed.contains ·) with
        | none => exact .inl ⟨_, rfl, fun hnone => by cases hnone⟩
        | some l =>
          exact .inr (.inr ⟨method, rfl, l, List.mem_of_find?_eq_some hfind,
            by simpa using List.find?_some hfind, rfl⟩)
      | _ => exact .inr (.inl ⟨_, rfl, fun l hl => by cases hl⟩)

theorem Nested.accept {listing : Listing} (h : listing.Nested) (directive : Directive) :
    (behind (Listing.accept directive) listing).Nested := by
  unfold behind
  rcases h.accept_cases directive with ⟨next, haccept, hnext⟩ | ⟨_, haccept, _⟩ |
    ⟨_, _, _, _, _, haccept⟩
  · rw [haccept]
    exact hnext
  · rw [haccept]
    exact h
  · rw [haccept]
    exact fun _ => rfl

theorem nested_after {listing : Listing} (h : listing.Nested) (directives : List Directive) :
    (listing.after directives).Nested := by
  unfold after
  induction directives generalizing listing with
  | nil => exact h
  | cons directive directives ih => exact ih (h.accept directive)

end Listing

def Code.text (code : Code) (header : MethodHeader) : MethodText :=
  ⟨header, code.entries.map .inl ++ code.ranges.map .inr, code.maxLocals⟩

theorem Code.directives_text (code : Code) (header : MethodHeader) : (code.text header).directives =
    .openMethod header :: (code.directives ++ [.closeMethod code.maxLocals]) := by
  simp [text, MethodText.directives, MethodText.written, Code.directives]

theorem Code.listing_text (code : Code) (header : MethodHeader) : (code.text header).listing =
    ⟨header, code.entries, code.ranges, code.maxLocals⟩ := by
  simp [text, MethodText.listing, List.filterMap_map, Function.comp_def]

/-- Well placed code is written into a method that was just opened, and listed as it is. -/
theorem Listing.acceptAll_code {classes : Array ClassListing} {code : Code}
    (h : WellPlaced code.entries code.ranges) (header : MethodHeader) (current : ClassListing) :
    acceptAll (code.directives ++ [.closeMethod code.maxLocals])
        ⟨classes, some current, some (.start header)⟩ =
      .ok () ⟨classes, some { current with
        methods := current.methods.push ⟨header, code.entries, code.ranges, code.maxLocals⟩ },
        none⟩ := by
  have hsound : (code.text header).Sound := by
    rw [MethodText.Sound, Code.listing_text]
    exact h
  have haccept : acceptAll _ ⟨classes, some current, none⟩ = _ := acceptAll_method hsound
  rw [Code.directives_text, Code.listing_text] at haccept
  exact haccept

end ClassAssembler
