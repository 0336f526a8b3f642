import ClassAssembler.Member
import ClassAssembler.Settings

/-!
# Valid names

A name that is made from a text is checked, and the fixed names would pass the same check.
-/

namespace ClassAssembler

open MemberName

variable {name : ClassName}

open List

namespace MemberName

instance (name : MemberName) : Decidable name.Valid :=
  inferInstanceAs (Decidable (flaw? name.text = none))

theorem flaw?_eq_none_iff {text : String} : flaw? text = none ↔
    text ≠ "" ∧ (∀ c ∈ text.toList, isReserved c = false) ∧
      (isSpecial text = true ∨ ∀ c ∈ text.toList, isBracket c = false) := by
  have hfree : (∀ c ∈ text.toList, isReserved c = false) ↔
      text.toList.find? isReserved = none := by simp
  unfold flaw?
  rw [hfree]
  by_cases hempty : text = ""
  · simp [hempty]
  · cases text.toList.find? isReserved with
    | some c => simp [hempty]
    | none => cases isSpecial text <;> simp [hempty]

theorem ofString_valid {text : String} {name : MemberName} (h : ofString text = .ok name) :
    name.Valid := by
  unfold ofString at h
  split at h
  · cases h
  · cases h
    assumption

def fixed : List MemberName :=
  [init, clinit, ({} : Settings).tableFieldStart, ({} : Settings).tableMethodStart,
    MethodRef.stringHashCode.name, MethodRef.stringEquals.name,
      (MethodRef.enumOrdinal .object).name,
    (MethodRef.enumValues .object).name, (MethodRef.box .int).name, MethodRef.iterableIterator.name,
    MethodRef.iteratorHasNext.name, MethodRef.iteratorNext.name] ++
    Primitive.all.map Primitive.unboxName

end MemberName

namespace ClassName

instance (name : ClassName) : Decidable name.Valid :=
  inferInstanceAs (Decidable (flaw? name.text = none))

def fixed : List ClassName :=
  [object, string, classObject, number, throwable, noSuchField, iterable, iterator] ++
    Primitive.all.map Primitive.wrapper

theorem valid_iff : name.Valid ↔
    name.text ≠ "" ∧ ∀ segment ∈ segments name.text, MemberName.flaw? segment = none := by
  unfold Valid flaw?
  by_cases hempty : name.text = ""
  · simp [hempty]
  · simp [hempty, findSome?_eq_none_iff]

theorem exists_piece {sep c : Char} {text : List Char} (hc : c ∈ text) (hne : c ≠ sep) :
    ∃ piece ∈ pieces sep text, c ∈ piece := by
  induction text with
  | nil => cases hc
  | cons d text ih =>
    rw [pieces, foldr_cons, ← pieces]
    rcases mem_cons.mp hc with rfl | hc
    · rw [if_neg hne]
      cases pieces sep text with
      | nil => exact ⟨[c], .head _, .head _⟩
      | cons piece rest => exact ⟨c :: piece, .head .., .head ..⟩
    · obtain ⟨piece, hpiece, hin⟩ := ih hc
      split
      · exact ⟨piece, .tail _ hpiece, hin⟩
      · cases hrest : pieces sep text with
        | nil =>
          rw [hrest] at hpiece
          cases hpiece
        | cons first rest =>
          rw [hrest] at hpiece
          rcases mem_cons.mp hpiece with rfl | hpiece
          · exact ⟨d :: piece, .head .., .tail _ hin⟩
          · exact ⟨piece, .tail _ hpiece, hin⟩

theorem Valid.not_reserved (h : name.Valid) {c : Char} (hc : c ∈ name.text.toList)
    (hsep : c ≠ '/') : MemberName.isReserved c = false := by
  obtain ⟨piece, hpiece, hin⟩ := exists_piece hc hsep
  have hflaw := (valid_iff.mp h).2 _ (mem_map_of_mem hpiece)
  exact (MemberName.flaw?_eq_none_iff.mp hflaw).2.1 c (by rwa [String.toList_ofList])

theorem ofString_eq_ok {text : String} :
    ofString text = .ok name ↔ name.Valid ∧ name.text = text := by
  unfold ofString Valid
  constructor
  · intro h
    split at h
    · cases h
    · cases h
      exact ⟨‹_›, rfl⟩
  · rintro ⟨hvalid, rfl⟩
    rw [hvalid]

theorem toList_flattened (name : ClassName) : name.flattened.text.toList =
    name.text.toList.map fun c => if c = '/' then '$' else c := String.toList_ofList

theorem flattened_text (h : '/' ∉ name.text.toList) : name.flattened.text = name.text := by
  refine String.toList_inj.mp ?_
  rw [toList_flattened]
  refine (map_congr_left fun c hc => if_neg ?_).trans (map_id' _)
  rintro rfl
  exact h hc

theorem isSpecial_flattened (name : ClassName) :
    isSpecial name.flattened.text = isSpecial name.text := by
  -- The special names have no separator, neither before flattening nor after it.
  have hspecial : ∀ {text : String}, '$' ∈ text.toList ∨ '/' ∈ text.toList →
      isSpecial text = false := by
    intro text hmem
    refine Bool.eq_false_iff.mpr fun h => ?_
    rcases Bool.or_eq_true_iff.mp h with h | h <;> rw [eq_of_beq h] at hmem <;> revert hmem
      <;> decide
  by_cases hsep : '/' ∈ name.text.toList
  · rw [hspecial (.inr hsep), hspecial (.inl ?_)]
    rw [toList_flattened]
    exact mem_map.mpr ⟨'/', hsep, rfl⟩
  · rw [flattened_text hsep]

/-- A flattened class name is a valid name of a member just if it has no brackets or is a special
name. -/
theorem Valid.flattened_iff (h : name.Valid) : name.flattened.Valid ↔
    isSpecial name.text = true ∨
      ∀ c ∈ name.text.toList, isBracket c = false := by
  have hne : name.flattened.text ≠ "" := by
    intro heq
    have hlist := toList_flattened name
    rw [heq] at hlist
    exact (valid_iff.mp h).1 (String.toList_eq_nil_iff.mp (map_eq_nil_iff.mp hlist.symm))
  have hfree : ∀ c ∈ name.flattened.text.toList, isReserved c = false := by
    rw [toList_flattened, forall_mem_map]
    intro c hc
    split
    · decide
    · next hsep => exact h.not_reserved hc hsep
  have hbrackets : (∀ c ∈ name.flattened.text.toList, isBracket c = false) ↔
      ∀ c ∈ name.text.toList, isBracket c = false := by
    rw [toList_flattened, forall_mem_map]
    refine forall₂_congr fun c _ => ?_
    split
    · next hsep =>
      subst hsep
      decide
    · rfl
  rw [MemberName.Valid, flaw?_eq_none_iff, isSpecial_flattened, hbrackets]
  exact ⟨fun h => h.2.2, fun h => ⟨hne, hfree, h⟩⟩

end ClassName

/-- The names of members that a caller can come by. -/
inductive MemberName.Obtained : MemberName → Prop
  | checked {text : String} {name : MemberName} : ofString text = .ok name → Obtained name
  | fixed {name : MemberName} : name ∈ fixed → Obtained name
  | flattened {text : String} {name : ClassName} : ClassName.ofString text = .ok name →
      Obtained name.flattened

/-- The fixed names pass their own checks, and so do the segments of every class name that is
accepted. Flattened, such a class name gives a valid name of a member just if it has no angle
brackets or is one of the two special names. This is the only way to come by a name of a member
that is not valid. -/
theorem names_valid (text : String) (member : MemberName) :
    (∀ name ∈ MemberName.fixed, name.Valid) ∧ (∀ name ∈ ClassName.fixed, name.Valid) ∧
    (∀ name, ClassName.ofString text = .ok name →
      (∀ segment ∈ ClassName.segments name.text, MemberName.flaw? segment = none) ∧
      (name.flattened.Valid ↔ MemberName.isSpecial name.text = true ∨
        ∀ c ∈ name.text.toList, MemberName.isBracket c = false)) ∧
    (member.Obtained → member.Valid ∨ ∃ text name,
      ClassName.ofString text = .ok name ∧ name.flattened = member ∧
        MemberName.isSpecial name.text = false ∧
        ∃ c ∈ name.text.toList, MemberName.isBracket c) := by
  have hfixed : ∀ name ∈ MemberName.fixed, name.Valid := by decide +kernel
  refine ⟨hfixed, by decide +kernel, fun name h => ?_, fun h => ?_⟩
  · have hvalid := (ClassName.ofString_eq_ok.mp h).1
    exact ⟨(ClassName.valid_iff.mp hvalid).2, hvalid.flattened_iff⟩
  · cases h with
    | checked h => exact .inl (MemberName.ofString_valid h)
    | fixed h => exact .inl (hfixed member h)
    | @flattened text name h =>
      by_cases hvalid : name.flattened.Valid
      · exact .inl hvalid
      · rw [(ClassName.ofString_eq_ok.mp h).1.flattened_iff, not_or] at hvalid
        exact .inr ⟨text, name, h, rfl, by simpa using hvalid⟩

theorem names_valid_color :
    ClassName.ofString "com/example/Color" = .ok ⟨"com/example/Color"⟩ ∧
      (∀ segment ∈ ["com", "example", "Color"], flaw? segment = none) ∧
      (⟨"com$example$Color"⟩ : MemberName).Valid := by
  have hok : ClassName.ofString "com/example/Color" = .ok ⟨"com/example/Color"⟩ :=
    ClassName.ofString_eq_ok.mpr ⟨by decide +kernel, rfl⟩
  obtain ⟨hsegments, hflat⟩ := (names_valid _ .init).2.2.1 _ hok
  have hsplit : ClassName.segments "com/example/Color" = ["com", "example", "Color"] := by
    decide +kernel
  have hname : (⟨"com/example/Color"⟩ : ClassName).flattened = ⟨"com$example$Color"⟩ := by
    decide +kernel
  have hfree : "com/example/Color".toList.all (!isBracket ·) = true := by
    decide +kernel
  refine ⟨hok, hsplit ▸ hsegments, hname ▸ hflat.mpr (.inr fun c hc => ?_)⟩
  simpa using all_eq_true.mp hfree c hc

/-- A class name with a special segment beside another is accepted, and flattening it gives a
name that the check of member names refuses. -/
theorem flattened_special_segment :
    ClassName.ofString "a/<init>" = .ok ⟨"a/<init>"⟩ ∧
      (⟨"a/<init>"⟩ : ClassName).flattened = ⟨"a$<init>"⟩ ∧
      ofString "a$<init>" = .error (.brackets "a$<init>") := by
  refine ⟨ClassName.ofString_eq_ok.mpr ⟨by decide +kernel, rfl⟩, by decide +kernel, ?_⟩
  have hflaw : flaw? "a$<init>" = some (.brackets "a$<init>") := by decide +kernel
  rw [ofString, hflaw]

end ClassAssembler
