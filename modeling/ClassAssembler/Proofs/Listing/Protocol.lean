import ClassAssembler.Proofs.Listing.Replay

/-!
# The protocol of a listing

A listing accepts the texts of classes with well placed labels one after another, every beginning
of such a sequence, and nothing else.
-/

namespace ClassAssembler

open List MethodText

/-- What was written of a class that is not closed yet. -/
inductive Unfinished where
  | nothing
  | inClass (text : ClassText)
  | inMethod (text : ClassText) (header : MethodHeader) (items : List (Entry ⊕ ExceptionRange))

namespace Unfinished

def directives : Unfinished → List Directive
  | nothing => []
  | inClass text => text.opening
  | inMethod text header items => text.opening ++ .openMethod header :: written items

def listing (classes : Array ClassListing) : Unfinished → Listing
  | nothing => ⟨classes, none, none⟩
  | inClass text => ⟨classes, some text.listing, none⟩
  | inMethod text header items => ⟨classes, some text.listing, some (.holding header items)⟩

/-- A label that is missing in the open method may still be placed. -/
def Sound : Unfinished → Prop
  | nothing => True
  | inClass text => text.Sound
  | inMethod text _ items => text.Sound ∧ (labels items).Nodup

theorem nodup_concat {placed : List Label} (h : placed.Nodup) {l : Label} (hl : l ∉ placed) :
    (placed ++ [l]).Nodup := by
  refine nodup_append.mpr ⟨h, by simp, fun a ha b hb heq => hl ?_⟩
  rwa [← mem_singleton.mp hb, ← heq]

theorem sound_concat {text : ClassText} (h : text.Sound) {member : FieldHeader ⊕ MethodText}
    (hmember : ∀ method, member = .inr method → method.Sound) :
    ClassText.Sound { text with members := text.members ++ [member] } := by
  intro method hm
  rcases mem_append.mp hm with hm | hm
  · exact h method hm
  · exact hmember method (mem_singleton.mp hm).symm

theorem accept {rest : Unfinished} (h : rest.Sound) {classes : Array ClassListing} {d : Directive}
    {next : Listing} (haccept : Listing.accept d (rest.listing classes) = .ok () next) :
    (∃ rest' : Unfinished, rest'.Sound ∧ rest'.directives = rest.directives ++ [d] ∧
      next = rest'.listing classes) ∨
    ∃ text : ClassText, text.Sound ∧ text.directives = rest.directives ++ [d] ∧
      next = ⟨classes.push text.listing, none, none⟩ := by
  cases rest with
  | nothing =>
    cases d with
    | openClass header =>
      cases haccept
      exact .inl ⟨.inClass ⟨header, []⟩, fun _ hm => (by cases hm), rfl, rfl⟩
    | _ => cases haccept
  | inClass text =>
    cases d with
    | field header =>
      cases haccept
      refine .inl ⟨.inClass { text with members := text.members ++ [.inl header] },
        sound_concat h fun _ hm => (by cases hm), ?_, ?_⟩
      · simp [directives, ClassText.opening]
      · simp [listing, ClassText.listing]
    | openMethod header =>
      cases haccept
      exact .inl ⟨.inMethod text header [], ⟨h, nodup_nil⟩, rfl, rfl⟩
    | closeClass =>
      cases haccept
      exact .inr ⟨text, h, rfl, rfl⟩
    | _ => cases haccept
  | inMethod text header items =>
    cases d with
    | entry e =>
      obtain ⟨hnew, rfl⟩ := (Listing.accept_entry_iff OpenMethod.tracks_holding).mp haccept
      refine .inl ⟨.inMethod text header (items ++ [.inl e]), ⟨h.1, ?_⟩, ?_, ?_⟩
      · rw [OpenMethod.labels_holding] at hnew
        have hlabel : labels [.inl e] = e.label?.toList := by cases e <;> rfl
        rw [labels_append, hlabel]
        cases hl : e.label? with
        | none => simpa using h.2
        | some l => exact nodup_concat h.2 (hnew l hl)
      · simp [directives, written]
      · simp [listing, OpenMethod.holding]
    | exceptionRange range =>
      cases haccept
      refine .inl ⟨.inMethod text header (items ++ [.inr range]), ⟨h.1, ?_⟩, ?_, ?_⟩
      · rw [labels_append]
        exact (List.append_nil _).symm ▸ h.2
      · simp [directives, written]
      · simp [listing, OpenMethod.holding, OpenMethod.take]
    | closeMethod maxLocals =>
      obtain ⟨hused, rfl⟩ := (Listing.accept_closeMethod_iff OpenMethod.tracks_holding).mp haccept
      rw [OpenMethod.used_holding, OpenMethod.labels_holding] at hused
      refine .inl ⟨.inClass { text with members := text.members ++
        [.inr ⟨header, items, maxLocals⟩] }, sound_concat h.1 ?_, ?_, ?_⟩
      · rintro _ ⟨⟩
        exact sound_iff.mpr ⟨h.2, hused⟩
      · simp [directives, ClassText.opening, MethodText.directives]
      · simp [listing, ClassText.listing, OpenMethod.close_holding]
    | _ => cases haccept

theorem closeClass_not_mem (rest : Unfinished) : .closeClass ∉ rest.directives := by
  have hwritten : ∀ items, .closeClass ∉ MethodText.written items := by
    intro items
    simp [MethodText.written, Sum.exists]
  have hopening : ∀ text : ClassText, .closeClass ∉ text.opening := by
    intro text
    simp [ClassText.opening, Sum.exists, MethodText.directives, hwritten]
  cases rest <;> simp [directives, hopening, hwritten]

theorem exists_placing {placed : List Label} (h : placed.Nodup) (needed : List Label) :
    ∃ more, (placed ++ more).Nodup ∧ ∀ l ∈ needed, l ∈ placed ++ more := by
  induction needed generalizing placed with
  | nil => exact ⟨[], by rwa [List.append_nil], fun _ hl => by cases hl⟩
  | cons l needed ih =>
    by_cases hl : l ∈ placed
    · obtain ⟨more, hnodup, hall⟩ := ih h
      exact ⟨more, hnodup, forall_mem_cons.mpr ⟨mem_append_left _ hl, hall⟩⟩
    · obtain ⟨more, hnodup, hall⟩ := ih (nodup_concat h hl)
      rw [List.append_assoc] at hnodup hall
      exact ⟨l :: more, hnodup, forall_mem_cons.mpr ⟨by simp, hall⟩⟩

theorem exists_completion {rest : Unfinished} (h : rest.Sound) :
    ∃ texts : List ClassText, (∀ text ∈ texts, text.Sound) ∧
      rest.directives <+: texts.flatMap ClassText.directives := by
  cases rest with
  | nothing => exact ⟨[], fun _ ht => (by cases ht), prefix_rfl⟩
  | inClass text =>
    refine ⟨[text], fun _ ht => mem_singleton.mp ht ▸ h, ?_⟩
    rw [flatMap_singleton]
    exact prefix_append _ _
  | inMethod text header items =>
    obtain ⟨more, hnodup, hall⟩ := exists_placing h.2 (MethodText.used items)
    let method : MethodText := ⟨header, items ++ more.map (.inl <| .label ·), 0⟩
    have hsound : method.Sound := by
      refine MethodText.sound_iff.mpr ?_
      have hused : MethodText.used method.items = MethodText.used items := by
        simp [method, MethodText.used, filterMap_map, Function.comp_def, flatMap_map,
          Entry.targets, flatMap_eq_nil_iff.mpr, filterMap_eq_nil_iff.mpr]
      have hlabels : MethodText.labels method.items = MethodText.labels items ++ more := by
        rw [MethodText.labels_append]
        simp [MethodText.labels, filterMap_map, Function.comp_def, Entry.label?]
      rw [hused, hlabels]
      exact ⟨hnodup, hall⟩
    refine ⟨[{ text with members := text.members ++ [.inr method] }], fun _ ht =>
      mem_singleton.mp ht ▸ sound_concat h.1 fun _ hm => (by cases hm; exact hsound), ?_⟩
    simp [method, directives, ClassText.directives, ClassText.opening, MethodText.directives,
      MethodText.written]

end Unfinished

namespace Listing

/-- Some directives are the texts of finished classes and what follows, just as a listing has it. -/
def Holds (listing : Listing) (directives : List Directive) : Prop :=
  ∃ (texts : List ClassText) (rest : Unfinished), (∀ text ∈ texts, text.Sound) ∧ rest.Sound ∧
    directives = texts.flatMap ClassText.directives ++ rest.directives ∧
    listing = rest.listing (texts.map ClassText.listing).toArray

theorem Holds.accept {listing next : Listing} {directives : List Directive} {d : Directive}
    (h : listing.Holds directives) (haccept : Listing.accept d listing = .ok () next) :
    next.Holds (directives ++ [d]) := by
  obtain ⟨texts, rest, htexts, hrest, rfl, rfl⟩ := h
  rcases Unfinished.accept hrest haccept with ⟨rest', hrest', hwritten, rfl⟩ |
    ⟨text, htext, hwritten, rfl⟩
  · exact ⟨texts, rest', htexts, hrest', by rw [List.append_assoc, hwritten], rfl⟩
  · refine ⟨texts ++ [text], .nothing, forall_mem_append.mpr
      ⟨htexts, forall_mem_singleton.mpr htext⟩, trivial, ?_, ?_⟩
    · simp [hwritten, Unfinished.directives]
    · simp [Unfinished.listing]

theorem Holds.acceptAll {listing next : Listing} {directives ds : List Directive}
    (h : listing.Holds directives) (haccept : Listing.acceptAll ds listing = .ok () next) :
    next.Holds (directives ++ ds) := by
  induction ds generalizing listing directives with
  | nil =>
    cases haccept
    rwa [List.append_nil]
  | cons d ds ih =>
    obtain ⟨mid, hd, hds⟩ := exists_of_acceptAll_cons haccept
    rw [append_cons]
    exact ih (h.accept hd) hds

theorem acceptAll_texts {texts : List ClassText} (h : ∀ text ∈ texts, text.Sound)
    {classes : Array ClassListing} :
    ∃ listing, acceptAll (texts.flatMap ClassText.directives) ⟨classes, none, none⟩ =
      .ok () listing := by
  induction texts generalizing classes with
  | nil => exact ⟨_, rfl⟩
  | cons text texts ih =>
    obtain ⟨listing, hall⟩ := ih fun t ht => h t (.tail _ ht)
    rw [flatMap_cons, acceptAll_append (acceptAll_class (h text (.head ..)))]
    exact ⟨listing, hall⟩

theorem exists_of_acceptAll_append {ds es : List Directive} {listing next : Listing}
    (h : acceptAll (ds ++ es) listing = .ok () next) :
      ∃ mid, acceptAll ds listing = .ok () mid := by
  induction ds generalizing listing with
  | nil => exact ⟨listing, rfl⟩
  | cons d ds ih =>
    obtain ⟨mid, hd, hds⟩ := exists_of_acceptAll_cons h
    rw [acceptAll_cons hd]
    exact ih hds

/-- Directives are all accepted if and only if they begin a sequence of texts of classes whose
labels are well placed. The finished classes are then those of the texts that are complete. -/
theorem accepted_iff_protocol (directives : List Directive) :
    ((∃ listing, acceptAll directives empty = .ok () listing) ↔
      ∃ texts : List ClassText, (∀ text ∈ texts, text.Sound) ∧
        directives <+: texts.flatMap ClassText.directives) ∧
    ∀ listing, acceptAll directives empty = .ok () listing →
      ∃ (texts : List ClassText) (rest : List Directive), (∀ text ∈ texts, text.Sound) ∧
        directives = texts.flatMap ClassText.directives ++ rest ∧ .closeClass ∉ rest ∧
        listing.classes.toList = texts.map ClassText.listing := by
  have hempty : empty.Holds [] := ⟨[], .nothing, fun _ ht => (by cases ht), trivial, rfl, rfl⟩
  refine ⟨⟨fun ⟨listing, haccept⟩ => ?_, fun ⟨texts, htexts, more, hmore⟩ => ?_⟩,
    fun listing haccept => ?_⟩
  · obtain ⟨texts, rest, htexts, hrest, hwritten, _⟩ := hempty.acceptAll haccept
    obtain ⟨more, hmore, hprefix⟩ := Unfinished.exists_completion hrest
    refine ⟨texts ++ more, forall_mem_append.mpr ⟨htexts, hmore⟩, ?_⟩
    rw [List.nil_append] at hwritten
    rw [hwritten, flatMap_append]
    exact (prefix_append_right_inj _).mpr hprefix
  · obtain ⟨listing, hall⟩ := acceptAll_texts htexts
    rw [← hmore] at hall
    exact exists_of_acceptAll_append hall
  · obtain ⟨texts, rest, htexts, _, hwritten, rfl⟩ := hempty.acceptAll haccept
    refine ⟨texts, rest.directives, htexts, hwritten, rest.closeClass_not_mem, ?_⟩
    cases rest <;> rfl

/-- Whatever directives came before: one that is refused leaves the listing as it is. Only when
a method cannot be closed for a label, the method is lost, and nothing else. -/
theorem refusal_keeps (directives : List Directive) (d : Directive) {fault : CodeFault}
    {next : Listing} (h : accept d (empty.after directives) = .error fault next) :
    ((∀ l, fault ≠ .unplacedTarget l) → next = empty.after directives) ∧
    ∀ l, fault = .unplacedTarget l → (empty.after directives).openMethod.isSome = true ∧
      next = { empty.after directives with openMethod := none } := by
  have hnested : (empty.after directives).Nested := nested_after (fun _ => rfl) directives
  rcases hnested.accept_cases d with ⟨_, haccept, _⟩ | ⟨_, haccept, hfault⟩ |
    ⟨method, hmethod, l, _, _, haccept⟩
  · cases haccept.symm.trans h
  · cases haccept.symm.trans h
    exact ⟨fun _ => rfl, fun l hl => absurd hl (hfault l)⟩
  · cases haccept.symm.trans h
    exact ⟨fun hother => absurd rfl (hother l), fun _ _ => ⟨by rw [hmethod]; rfl, rfl⟩⟩

def opened : List Directive :=
  [.openClass ⟨⟨"Sample"⟩, .object, [], .publicFlag⟩,
    .openMethod ⟨⟨"run"⟩, ⟨[], none⟩, .staticFlag⟩]

/-- The class cannot be closed before its method is. -/
theorem refusal_keeps_opened : ∃ next, accept .closeClass (empty.after opened) =
      .error (.misplacedCall .closeClass .insideMethod) next ∧
    next = empty.after opened ∧ next.openMethod.isSome = true :=
  ⟨_, rfl, (refusal_keeps opened .closeClass rfl).1 fun _ hl => (by cases hl), rfl⟩

/-- A method that jumps to a label before it is placed is lost when it is to be closed. -/
theorem method_lost : ∃ method,
    (empty.after (opened ++ [.entry (.branch (.goto ⟨0⟩))])).openMethod = some method ∧
    accept (.closeMethod 0) (empty.after (opened ++ [.entry (.branch (.goto ⟨0⟩))])) =
      .error (.unplacedTarget ⟨0⟩)
        { empty.after (opened ++ [.entry (.branch (.goto ⟨0⟩))]) with openMethod := none } := by
  refine ⟨_, rfl, ?_⟩
  simp [after, opened, behind, accept, onClass, currentClass, onMethod, writeEntry, closeMethod,
    empty, OpenMethod.start, OpenMethod.used, Entry.targets, Branch.targets]

end Listing
end ClassAssembler
