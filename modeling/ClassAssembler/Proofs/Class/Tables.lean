import ClassAssembler.Proofs.Build.Initialized
import ClassAssembler.Proofs.Class.Closing

/-!
# Names of ordinal tables

The tables of a class are named after their enums, and numbered if an enum has several. A number
tells the tables of one enum apart.
-/

namespace ClassAssembler

open List MemberCall

namespace OrdinalTable

/-- A text is split at the last occurrence of a character in one way only. -/
theorem split_last {α : Type} {c : α} {xs ys as bs : List α} (ha : c ∉ as) (hb : c ∉ bs)
    (h : xs ++ c :: as = ys ++ c :: bs) : xs = ys ∧ as = bs := by
  rcases split_cons h with ⟨rfl, _, rfl⟩ | ⟨zs, _, rfl⟩ | ⟨zs, _, rfl⟩
  · exact ⟨rfl, rfl⟩
  · exact absurd (by simp) hb
  · exact absurd (by simp) ha

theorem dollar_not_mem_toDigits (n : Nat) : '$' ∉ Nat.toDigits 10 n := by
  intro h
  have hdigit : ('$' : Char).isDigit = true :=
    Nat.isDigit_of_mem_toDigits (by omega) (Nat.le_refl 10) h
  exact absurd hdigit (by decide)

theorem toDigits_injective {m n : Nat} (h : Nat.toDigits 10 m = Nat.toDigits 10 n) : m = n := by
  have hdigits := congrArg (Nat.ofDigitChars 10 · 0) h
  simpa only [Nat.ofDigitChars_ten_toDigits] using hdigits

theorem nameEnd_zero (type : ClassName) : nameEnd type 0 = type.flattened.text := by
  simp [nameEnd]

theorem toList_nameEnd (type : ClassName) {n : Nat} (h : n ≠ 0) :
    (nameEnd type n).toList = type.flattened.text.toList ++ '$' :: Nat.toDigits 10 n := by
  simp [nameEnd, h, Nat.toString_eq_repr]

/-- Two numbered ends are the same only if the numbers and the names are. -/
theorem nameEnd_numbered {s t : ClassName} {m n : Nat} (hm : m ≠ 0) (hn : n ≠ 0)
    (h : nameEnd s m = nameEnd t n) : s.flattened.text = t.flattened.text ∧ m = n := by
  have hlist := congrArg String.toList h
  rw [toList_nameEnd s hm, toList_nameEnd t hn] at hlist
  obtain ⟨htext, hdigits⟩ :=
    split_last (dollar_not_mem_toDigits m) (dollar_not_mem_toDigits n) hlist
  exact ⟨String.toList_inj.mp htext, toDigits_injective hdigits⟩

theorem nameEnd_injective {type : ClassName} {m n : Nat} (h : nameEnd type m = nameEnd type n) :
    m = n := by
  have hplain : ∀ {k : Nat}, k ≠ 0 → nameEnd type 0 ≠ nameEnd type k := by
    intro k hk heq
    have hlist := congrArg String.toList heq
    rw [nameEnd_zero, toList_nameEnd type hk] at hlist
    simp at hlist
  by_cases hm : m = 0
  · by_cases hn : n = 0
    · omega
    · exact absurd (hm ▸ h) (hplain hn)
  · by_cases hn : n = 0
    · exact absurd (hn ▸ h).symm (hplain hm)
    · exact (nameEnd_numbered hm hn h).2

/-- A number that a table may have. Tables that are shared have none. -/
def Numbers (settings : Settings) (n : Nat) : Prop := n = 0 ∨ settings.tableSharing = .perSite

/-- Enums whose tables are told apart by their names: no name, flattened, looks like another one
with a number behind it. -/
def NamesApart (settings : Settings) (types : List ClassName) : Prop :=
  ∀ s ∈ types, ∀ t ∈ types, s ≠ t → ∀ n, Numbers settings n →
    s.flattened.text ≠ nameEnd t n

theorem NamesApart.nameEnd_ne {settings : Settings} {types : List ClassName} {s t : ClassName}
    {m n : Nat} (h : NamesApart settings types) (hs : s ∈ types) (ht : t ∈ types) (hne : s ≠ t)
    (hm : Numbers settings m) (hn : Numbers settings n) : nameEnd s m ≠ nameEnd t n := by
  intro heq
  by_cases hm0 : m = 0
  · rw [hm0, nameEnd_zero] at heq
    exact h s hs t ht hne n hn heq
  · by_cases hn0 : n = 0
    · rw [hn0, nameEnd_zero] at heq
      exact h t ht s hs hne.symm m hm heq.symm
    · refine h s hs t ht hne 0 (.inl rfl) ?_
      rw [nameEnd_zero]
      exact (nameEnd_numbered hm0 hn0 heq).1

/-- Tables that the switches of a class may have asked for. -/
inductive Asked (settings : Settings) (owner : ClassName) : All → Prop
  | none : Asked settings owner #[]
  | add {tables : All} {enumType : ClassName} {table : OrdinalTable} :
      Asked settings owner tables → shared? settings tables enumType = .none →
      create settings owner enumType (siblings tables enumType) = .ok table →
      Asked settings owner (tables.push table)
  | enter {tables : All} {t : Nat} {row : OrdinalTable} (constant : MemberName) :
      Asked settings owner tables → tables[t]? = some row →
      Asked settings owner (tables.setIfInBounds t (row.enter constant).2)

structure Named (settings : Settings) (owner : ClassName) (table : OrdinalTable) (n : Nat) :
    Prop where
  field : table.field =
    { owner, name := ⟨settings.tableFieldStart.text ++ nameEnd table.enumType n⟩, type := rowType }
  accessor : table.accessor =
    { owner
      name := ⟨settings.tableMethodStart.text ++ nameEnd table.enumType n⟩
      type := ⟨[], some rowType⟩ }

variable {settings : Settings} {owner : ClassName} {tables : All}

theorem memberName_eq_ok {start name : MemberName} {nameEnd : String}
    (h : memberName start nameEnd = .ok name) : name = ⟨start.text ++ nameEnd⟩ := by
  unfold memberName MemberName.ofString at h
  split at h
  · next name' hname =>
    split at hname
    · cases hname
    · cases hname
      cases h
      rfl
  · cases h

theorem create_eq_ok {enumType : ClassName} {n : Nat} {table : OrdinalTable}
    (h : create settings owner enumType n = .ok table) :
    table.enumType = enumType ∧ table.Named settings owner n := by
  cases hfield : memberName settings.tableFieldStart (nameEnd enumType n) with
  | error fault =>
    simp only [create, bind, Except.bind, hfield] at h
    cases h
  | ok field =>
    cases hmethod : memberName settings.tableMethodStart (nameEnd enumType n) with
    | error fault =>
      simp only [create, bind, Except.bind, hfield, hmethod] at h
      cases h
    | ok method =>
      simp only [create, bind, Except.bind, hfield, hmethod] at h
      cases h
      rw [memberName_eq_ok hfield, memberName_eq_ok hmethod]
      exact ⟨rfl, rfl, rfl⟩

theorem map_enter {α : Type} (f : OrdinalTable → α) {t : Nat} {row : OrdinalTable}
    {constant : MemberName} (hrow : tables[t]? = some row) (hf : f (row.enter constant).2 = f row) :
    (tables.setIfInBounds t (row.enter constant).2).toList.map f = tables.toList.map f := by
  rw [Array.toList_setIfInBounds, map_set, hf]
  refine ext_getElem? fun i => ?_
  rw [getElem?_set]
  split
  · next hi =>
    subst hi
    have hlist : (tables.toList.map f)[t]? = some (f row) := by
      rw [getElem?_map, Array.getElem?_toList, hrow]
      rfl
    rw [hlist, if_pos (List.getElem?_eq_some_iff.mp hlist).1]
  · rfl

theorem siblings_eq_count (tables : All) (type : ClassName) :
    siblings tables type = (tables.toList.map enumType).count type := by
  rw [siblings, ← Array.countP_toList, count, countP_map]
  rfl

theorem numbers_siblings {type : ClassName} (h : shared? settings tables type = .none) :
    Numbers settings (siblings tables type) := by
  unfold shared? at h
  split at h
  · apply Or.inl
    cases hfind : tables.findIdx? (·.enumType == type) with
    | none =>
      rw [siblings, Array.countP_eq_zero]
      exact fun row hrow => by simpa using Array.findIdx?_eq_none_iff.mp hfind row hrow
    | some index =>
      obtain ⟨hlt, _⟩ := Array.findIdx?_eq_some_iff_getElem.mp hfind
      simp [hfind, Array.getElem?_eq_getElem hlt] at h
  · next hsite => exact .inr hsite

theorem Asked.named (h : Asked settings owner tables) : ∀ row ∈ tables.toList,
    ∃ n, n < siblings tables row.enumType ∧ Numbers settings n ∧ row.Named settings owner n := by
  induction h with
  | none => exact fun _ hrow => by cases hrow
  | @add tables enumType table _ hshared hcreate ih =>
    obtain ⟨htype, hnamed⟩ := create_eq_ok hcreate
    intro row hrow
    rw [siblings_eq_count, Array.toList_push, List.map_append, count_append,
      ← siblings_eq_count]
    rcases mem_append.mp (Array.toList_push ▸ hrow) with hrow | hrow
    · obtain ⟨n, hlt, hnumbers, hnamed⟩ := ih row hrow
      exact ⟨n, Nat.lt_add_right _ hlt, hnumbers, hnamed⟩
    · cases mem_singleton.mp hrow
      exact ⟨siblings tables enumType, by simp [htype], numbers_siblings hshared, hnamed⟩
  | @enter tables t row constant _ hrow ih =>
    have hg := Grows.enter row constant
    intro row' hrow'
    rw [siblings_eq_count, map_enter enumType hrow hg.enumType, ← siblings_eq_count]
    rw [Array.toList_setIfInBounds] at hrow'
    rcases mem_or_eq_of_mem_set hrow' with hrow' | rfl
    · exact ih row' hrow'
    · have hmem := Array.mem_toList_iff.mpr (Array.mem_of_getElem? hrow)
      obtain ⟨n, hlt, hnumbers, hnamed⟩ := ih row hmem
      rw [hg.enumType]
      refine ⟨n, hlt, hnumbers, ?_, ?_⟩
      · rw [hg.field, hg.enumType, hnamed.field]
      · rw [hg.accessor, hg.enumType, hnamed.accessor]

def names (table : OrdinalTable) : MemberName × MemberName :=
  (table.field.name, table.accessor.name)

def Differ (a b : MemberName × MemberName) : Prop := a.1 ≠ b.1 ∧ a.2 ≠ b.2

/-- Tables of enums whose names are apart have different names. -/
theorem Asked.differ (h : Asked settings owner tables)
    (hapart : NamesApart settings (tables.toList.map enumType)) :
    (tables.toList.map names).Pairwise Differ := by
  induction h with
  | none => exact .nil
  | @add tables enumType' table hasked hshared hcreate ih =>
    obtain ⟨htype, hnamed⟩ := create_eq_ok hcreate
    rw [Array.toList_push, List.map_append] at hapart ⊢
    refine pairwise_append.mpr ⟨ih fun s hs t ht => ?_, pairwise_singleton _ _, ?_⟩
    · exact hapart s (mem_append_left _ hs) t (mem_append_left _ ht)
    · intro a ha b hb
      obtain ⟨row, hrow, rfl⟩ := mem_map.mp ha
      cases mem_singleton.mp hb
      obtain ⟨n, hlt, hnumbers, hrowNamed⟩ := hasked.named row hrow
      have hends : nameEnd row.enumType n ≠ nameEnd table.enumType (siblings tables enumType') := by
        by_cases hsame : row.enumType = table.enumType
        · intro heq
          rw [hsame] at heq hlt
          have hn := nameEnd_injective heq
          rw [htype] at hlt
          omega
        · exact hapart.nameEnd_ne (mem_append_left _ (mem_map_of_mem hrow))
            (mem_append_right _ (.head _)) hsame hnumbers
            (numbers_siblings hshared)
      unfold Differ names
      rw [hrowNamed.field, hrowNamed.accessor, hnamed.field, hnamed.accessor]
      exact ⟨fun heq => hends ((String.append_right_inj _).mp (MemberName.mk.inj heq)),
        fun heq => hends ((String.append_right_inj _).mp (MemberName.mk.inj heq))⟩
  | @enter tables t row constant _ hrow ih =>
    have hg := Grows.enter row constant
    rw [map_enter enumType hrow hg.enumType] at hapart
    rw [map_enter names hrow (by rw [names, names, hg.field, hg.accessor])]
    exact ih hapart

end OrdinalTable

open OrdinalTable

theorem Body.Steps.asked {mayInit : Bool} {b b' : Body} (h : b.Steps mayInit b')
    (hb : Asked b.settings b.method.owner b.tables) :
    Asked b'.settings b'.method.owner b'.tables := by
  refine h.preserves (P := fun b => Asked b.settings b.method.owner b.tables) ?_ hb
  intro c c' hstep hc
  cases hstep with
  | enter t row constant hrow => exact hc.enter constant hrow
  | addTable enumType table notice hshared hcreate => exact hc.add hshared hcreate
  | _ => exact hc

namespace ClassDraft

/-- The tables of a class are those that its bodies have asked for. -/
structure Asks (draft : ClassDraft) : Prop where
  asked : Asked draft.settings draft.header.name draft.tables
  /-- As long as no body has failed, the code of the class goes by its tables. -/
  bodies : draft.broken = false → ∀ method ∈ draft.methods.toList, ∀ code, method.code = some code →
    ∃ (b : Body) (notice : Notice), b.Built ∧ b.toCode = .ok (code, notice) ∧
      b.method.name = method.header.name ∧ b.method.type = method.header.type ∧
      Extend b.tables draft.tables

variable {draft : ClassDraft} {made : Members} {header : ClassHeader} {settings : Settings}

theorem start_head {id : BodyId} {method : MethodRef} {access : Access .method}
    {superClass : ClassName} {tables : All} {body : Body}
    (h : Body.start id method access superClass settings tables = .ok body) :
    body.settings = settings ∧ body.method = method ∧ body.tables = tables := by
  unfold Body.start at h
  dsimp only at h
  split at h
  · cases h
  · cases h
    exact ⟨rfl, rfl, rfl⟩

theorem steps_of_ok {σ : Type} {m : Build σ Unit} {b : Body} {carried : σ} {work : Work σ}
    (hm : Build.Writes σ 0 Unit m) (h : m ⟨b, carried⟩ = .ok () work) : b.Steps true work.body := by
  rw [← Build.after_of_ok h]
  exact hm.stepwise ⟨b, carried⟩

theorem seal?_asked {σ : Type} {tables' : All} {spec : MethodSpec} {block : Block σ} {carried : σ}
    {code : Code} (h : draft.seal? draft.tables spec block carried = some (code, tables'))
    (hwrites : Build.Writes σ 0 Unit (block 0))
    (hasked : Asked draft.settings draft.header.name draft.tables) :
    Asked draft.settings draft.header.name tables' ∧ Extend draft.tables tables' := by
  obtain ⟨body, work, notice, hstart, hblock, hcode, rfl⟩ := seal?_eq_some_iff.mp h
  have hsteps := steps_of_ok hwrites hblock
  obtain ⟨hsettings, hmethod, htables⟩ := start_head hstart
  have hafter := hsteps.asked (by rw [hsettings, hmethod, htables]; exact hasked)
  rw [hsteps.sameHead.settings, hsteps.sameHead.method, hsettings, hmethod] at hafter
  exact ⟨hafter, htables ▸ hsteps.tables⟩

theorem Asks.run (h : draft.Asks) (hfollow : Members.Follow header settings draft made)
    (call : MemberCall) : (call.run draft made).1.Asks := by
  cases call with
  | field field =>
    rcases addField_cases field draft with ⟨fault, hadd⟩ | ⟨⟨ref, hadd⟩, _⟩
    · simp only [MemberCall.run, hadd]
      exact h
    · simp only [MemberCall.run, hadd]
      exact ⟨h.asked, h.bodies⟩
  | declare spec =>
    rcases declareMethod_cases spec draft with ⟨fault, hadd⟩ | ⟨⟨ref, hadd⟩, _⟩
    · simp only [MemberCall.run, hadd]
      exact h
    · simp only [MemberCall.run, hadd]
      refine ⟨h.asked, fun hbroken method hmethod code hcode => ?_⟩
      rcases mem_append.mp (Array.toList_push ▸ hmethod) with hmethod | hmethod
      · exact h.bodies hbroken method hmethod code hcode
      · cases mem_singleton.mp hmethod
        cases hcode
  | body spec block carried hwrites =>
    rcases defineMethod_cases spec block draft carried with
      ⟨fault, after, _, hadd, hheader, hsettings, hbroken, htables⟩ |
      ⟨ref, code, tables, notices, _, hadd, hseal, _⟩
    · simp only [MemberCall.run, hadd]
      refine ⟨?_, fun hok => by rw [hbroken] at hok; cases hok⟩
      rw [hheader, hsettings]
      rcases htables with htables | htables
      · exact htables ▸ h.asked
      · exact htables ▸ .none
    · simp only [MemberCall.run, hadd]
      obtain ⟨hasked, hextend⟩ := seal?_asked hseal hwrites h.asked
      refine ⟨hasked, fun hbroken method hmethod code' hcode => ?_⟩
      have hagree := hfollow.agree (hfollow.broken ▸ hbroken)
      rcases mem_append.mp (Array.toList_push ▸ hmethod) with hmethod | hmethod
      · obtain ⟨b, notice, hb, hof, hname, htype, hle⟩ :=
        h.bodies hbroken method hmethod code' hcode
        exact ⟨b, notice, hb, hof, hname, htype, hle.trans hextend⟩
      · cases mem_singleton.mp hmethod
        cases hcode
        obtain ⟨_, work, notice, hstart, hblock, hb, hof, htables⟩ :=
          seal?_built hseal (hagree.tables ▸ hagree.left) hwrites
        have hmethod := (steps_of_ok hwrites hblock).sameHead.method.trans (start_head hstart).2.1
        exact ⟨work.body, notice, hb, hof, by rw [hmethod]; rfl, by rw [hmethod]; rfl,
          htables ▸ .refl _⟩

theorem asks_runAll (serial : Nat) (header : ClassHeader) (settings : Settings)
    (calls : List MemberCall) : (runAll serial header settings calls).1.Asks := by
  unfold runAll
  have hfollow := Members.follow_start serial header settings
  have hstart : (start serial header settings).Asks := ⟨.none, fun _ _ h => by cases h⟩
  generalize start serial header settings = draft at hfollow hstart
  generalize Members.none = made at hfollow
  induction calls generalizing draft made with
  | nil => exact hstart
  | cons call calls ih => exact ih _ (hstart.run hfollow call) _ (hfollow.run call)

theorem fieldFault?_of_append {after : ClassDraft} {fields : List FieldHeader} {field : FieldHeader}
    (hheader : after.header = draft.header)
    (hfields : after.fields.toList = draft.fields.toList ++ fields)
    (hnew : ∀ known ∈ fields, known.name ≠ field.name) :
    after.fieldFault? field = draft.fieldFault? field := by
  have hmore : fields.any (fun known => known.name == field.name &&
      known.type == field.type) = false :=
    any_eq_false.mpr fun known hknown => by simp [hnew known hknown]
  simp only [fieldFault?, isInterface, hheader, ← Array.any_toList, hfields, any_append, hmore,
    Bool.or_false]

theorem duplicateFault?_of_append {after : ClassDraft} {methods : List MethodDraft}
    {header : MethodHeader} (hmethods : after.methods.toList = draft.methods.toList ++ methods)
    (hnew : ∀ known ∈ methods, known.header.name ≠ header.name) :
    after.duplicateFault? header = draft.duplicateFault? header := by
  have hmore : methods.any (fun known => known.header.name == header.name &&
      known.header.type == header.type) = false :=
    any_eq_false.mpr fun known hknown => by simp [hnew known hknown]
  simp only [duplicateFault?, hasMethod, ← Array.any_toList, hmethods, any_append, hmore,
    Bool.or_false]

end ClassDraft

open ClassDraft in
/-- The tables of a class have different names if the names of their enums are apart. When the
class is closed, the members of the tables that were added already do not stand in the way of
those of the next one. -/
theorem table_names_apart (serial : Nat) (header : ClassHeader) (settings : Settings)
    (calls : List MemberCall)
    (hapart : NamesApart settings
      ((runAll serial header settings calls).1.tables.toList.map enumType)) :
    let draft := (runAll serial header settings calls).1
    draft.tables.toList.Pairwise (fun row row' =>
      row.field.name ≠ row'.field.name ∧ row.accessor.name ≠ row'.accessor.name) ∧
    ∀ before table behind after, draft.broken = false →
      draft.tables.toList = before ++ table :: behind →
      before.forM addTable { draft with tables := #[] } = .ok () after →
      after.fieldFault? (table.fieldHeader settings) =
          draft.fieldFault? (table.fieldHeader settings) ∧
        after.duplicateFault? (table.accessorSpec settings).header =
          draft.duplicateFault? (table.accessorSpec settings).header := by
  intro draft
  have hasks : draft.Asks := asks_runAll serial header settings calls
  have hfollow := Members.follow_runAll serial header settings calls
  have hpairs : (draft.tables.toList.map names).Pairwise Differ :=
    hasks.asked.differ (by rw [hfollow.settings]; exact hapart)
  rw [pairwise_map] at hpairs
  refine ⟨hpairs, fun before table behind after hbroken htables hadded => ?_⟩
  have hagree := hfollow.agree (hfollow.broken ▸ hbroken)
  have hstart : Members.Holds header settings { draft with tables := #[] } _ :=
    ⟨hfollow.header, hfollow.settings, #[], { hagree with tables := rfl, left := .inl rfl }⟩
  obtain ⟨accessors, hfst, _, hholds⟩ := hstart.addTables hadded
  obtain ⟨_, hafter⟩ := hholds.agree
  have hnew : ∀ x ∈ accessors, Differ x.1.names table.names := by
    intro x hx
    rw [htables] at hpairs
    exact (pairwise_append.mp hpairs).2.2 _ (hfst ▸ mem_map_of_mem hx) _
      (.head ..)
  constructor
  · refine fieldFault?_of_append (hholds.header.trans hfollow.header.symm)
      (hafter.fields.trans (congrArg (· ++ _) hagree.fields.symm)) fun known hknown => ?_
    obtain ⟨x, hx, rfl⟩ := mem_map.mp hknown
    exact (hnew x hx).1
  · refine duplicateFault?_of_append (hafter.methods.trans (congrArg (· ++ _) hagree.methods.symm))
      fun known hknown => ?_
    obtain ⟨x, hx, rfl⟩ := mem_map.mp hknown
    exact (hnew x hx).2

theorem ClassDraft.defineMethod_of_sealed {σ : Type} (draft : ClassDraft) (spec : MethodSpec)
    (block : Block σ) (carried : σ) {body : Body} {work : Work σ} {code : Code} {notice : Notice}
    (hfault : draft.defineFault? spec = none)
    (hstart : Body.start ⟨draft.serial, draft.bodies⟩ (draft.methodRef spec) spec.header.access
      draft.header.superClass draft.settings draft.tables = .ok body)
    (hblock : block 0 ⟨body, carried⟩ = .ok () work)
    (hcode : work.body.toCode = .ok (code, notice)) :
    ∃ bodies notices, defineMethod spec block (draft, carried) = .ok (draft.methodRef spec)
      (addMethod spec.header (some code) { draft with tables := work.body.tables, bodies, notices },
        work.carried) := by
  simp only [defineMethod, buildCode, hfault, startBody, hstart, hblock, hcode, note]
  exact ⟨_, _, rfl⟩

def Build.twoSwitches : Build Unit Unit := do
  let first ← param 0
  let second ← param 1
  switchEnum 0 first (pure ())
  switchEnum 0 second (pure ())

theorem Build.writes_twoSwitches : Writes Unit 0 Unit twoSwitches :=
  .bind (.call (.param 0)) fun first => .bind (.call (.param 1)) fun second =>
    .bind (.switchEnum first (.pure ())) fun _ => .switchEnum second (.pure ())

def ClassDraft.twoSwitches (access : Access .type) (first second : ClassName) : ClassDraft :=
  (runAll 0 ⟨⟨"demo/A"⟩, .object, [], access⟩ {}
    [.body (.plain ⟨"f"⟩ ⟨[.object first, .object second], none⟩ (some .staticFlag))
      (fun _ => Build.twoSwitches) () Build.writes_twoSwitches]).1

def Body.twoStart (access : Access .type) (first second : ClassName) : Body :=
  ((Body.start ⟨0, 0⟩ ⟨⟨"demo/A"⟩, ⟨"f"⟩, ⟨[.object first, .object second], none⟩,
    access.contains .interfaceFlag⟩ .staticFlag .object {} #[]).toOption).get rfl

def Body.twoSwitches (access : Access .type) (first second : ClassName) : Body :=
  (Build.after Build.twoSwitches ⟨twoStart access first second, ()⟩).body

theorem Body.built_twoSwitches (access : Access .type) (first second : ClassName) :
    (twoSwitches access first second).Built :=
  .first ⟨_, ⟨⟨"demo/A"⟩, ⟨"f"⟩, ⟨[.object first, .object second], none⟩,
    access.contains .interfaceFlag⟩, .staticFlag, .object, {}, rfl⟩ Build.writes_twoSwitches

theorem ClassDraft.twoSwitches_eq {access : Access .type} {first second : ClassName}
    (hrun : Build.endsWell Build.twoSwitches ⟨Body.twoStart access first second, ()⟩ = true)
    (hchecked : (Body.twoSwitches access first second).Checked) :
    ∃ code notice, (Body.twoSwitches access first second).toCode = .ok (code, notice) ∧
      (twoSwitches access first second).tables = (Body.twoSwitches access first second).tables ∧
      (twoSwitches access first second).broken = false ∧
      (twoSwitches access first second).methods.toList.map MethodDraft.code = [some code] ∧
      (twoSwitches access first second).header = ⟨⟨"demo/A"⟩, .object, [], access⟩ := by
  obtain ⟨code, notice, hcode⟩ :=
    Body.exists_code (Body.built_twoSwitches access first second) hchecked
  have hstart : Body.start ⟨0, 0⟩ ⟨⟨"demo/A"⟩, ⟨"f"⟩, ⟨[.object first, .object second], none⟩,
      access.contains .interfaceFlag⟩ .staticFlag .object {} #[] =
      .ok (Body.twoStart access first second) := rfl
  have hlacks : (Access.staticFlag : Access .method).lacksCode = false := by decide
  obtain ⟨_, hblock⟩ := Build.exists_ok_of_endsWell hrun
  obtain ⟨bodies, notices, hdefine⟩ := defineMethod_of_sealed
    (start 0 ⟨⟨"demo/A"⟩, .object, [], access⟩ {})
    (.plain ⟨"f"⟩ ⟨[.object first, .object second], none⟩ (some .staticFlag))
    (fun _ => Build.twoSwitches) () (by
      simp [defineFault?, duplicateFault?, hasMethod, start, MethodSpec.plain, hlacks])
    hstart hblock hcode
  refine ⟨code, notice, hcode, ?_⟩
  simp only [twoSwitches, runAll, foldl_cons, foldl_nil, run,
    hdefine]
  exact ⟨rfl, rfl, rfl, rfl⟩

theorem Body.checked_clash :
    (Body.twoSwitches .publicFlag ⟨"demo/Color"⟩ ⟨"demo$Color"⟩).Checked := by
  constructor <;> decide +kernel

theorem Body.checked_apart :
    (Body.twoSwitches .publicFlag ⟨"demo/Color"⟩ ⟨"demo/Tint"⟩).Checked := by
  constructor <;> decide +kernel

/-- Two names that are the same when flattened lead to tables of one name. -/
theorem table_names_clash :
    let draft := ClassDraft.twoSwitches .publicFlag ⟨"demo/Color"⟩ ⟨"demo$Color"⟩
    draft.broken = false ∧
      draft.tables.toList.map enumType = [⟨"demo/Color"⟩, ⟨"demo$Color"⟩] ∧
      draft.tables.toList.map names = [(⟨"$SWITCH_TABLE$demo$Color"⟩, ⟨"$SWITCH_TABLE$demo$Color"⟩),
        (⟨"$SWITCH_TABLE$demo$Color"⟩, ⟨"$SWITCH_TABLE$demo$Color"⟩)] := by
  intro draft
  obtain ⟨_, _, _, htables, hbroken, _⟩ :=
    ClassDraft.twoSwitches_eq (by decide +kernel) Body.checked_clash
  refine ⟨hbroken, ?_⟩
  show _ = _ ∧ _ = _
  rw [show draft.tables = _ from htables]
  decide +kernel

/-- A class with switches on two enums whose names are apart. -/
theorem table_names_apart_two :
    let draft := ClassDraft.twoSwitches .publicFlag ⟨"demo/Color"⟩ ⟨"demo/Tint"⟩
    draft.broken = false ∧ draft.tables.size = 2 ∧
      draft.tables.toList.Pairwise (fun row row' =>
        row.field.name ≠ row'.field.name ∧ row.accessor.name ≠ row'.accessor.name) := by
  intro draft
  obtain ⟨_, _, _, htables, hbroken, _⟩ :=
    ClassDraft.twoSwitches_eq (by decide +kernel) Body.checked_apart
  change draft.tables = _ at htables
  refine ⟨hbroken, by rw [htables]; decide +kernel, (table_names_apart 0 _ {} _ ?_).1⟩
  have htypes : draft.tables.toList.map enumType = [⟨"demo/Color"⟩, ⟨"demo/Tint"⟩] := by
    rw [htables]
    decide +kernel
  show NamesApart {} (draft.tables.toList.map enumType)
  rw [htypes]
  intro s hs t ht hne n hn
  cases hn with
  | inr h => cases h
  | inl h =>
    subst h
    rw [nameEnd_zero]
    revert s t
    decide +kernel

end ClassAssembler
