import ClassAssembler.Proofs.Descriptor.Names

/-!
# Descriptors read back

Reading a descriptor off the front of a text gives the type it was written for and stops right
behind it, whatever follows.
-/

namespace ClassAssembler

open List ClassName

theorem ClassName.Valid.no_semicolon {name : ClassName} (h : name.Valid) :
    ∀ c ∈ name.text.toList, (c != ';') = true := by
  intro c hc
  cases hne : c != ';' with
  | true => rfl
  | false =>
    cases (bne_eq_false_iff_eq.mp hne)
    cases h.not_reserved hc (by decide)

/-- All class names in the type are ones that their own check accepts. -/
def RefType.Valid : RefType → Prop
  | .object name => name.Valid
  | .primArray _ => True
  | .refArray element => element.Valid

@[inherit_doc RefType.Valid]
def FieldType.Valid : FieldType → Prop
  | .prim _ => True
  | .ref r => r.Valid

@[inherit_doc RefType.Valid]
def MethodType.Valid (type : MethodType) : Prop :=
  (∀ param ∈ type.params, param.Valid) ∧ ∀ returns, type.returns = some returns → returns.Valid

def utf8Bytes (cs : List Char) : Nat := cs.foldr (fun c bytes => c.utf8Size + bytes) 0

theorem utf8Bytes_append (cs ds : List Char) :
    utf8Bytes (cs ++ ds) = utf8Bytes cs + utf8Bytes ds := by
  induction cs with
  | nil => exact (Nat.zero_add _).symm
  | cons c cs ih =>
    show c.utf8Size + utf8Bytes (cs ++ ds) = c.utf8Size + utf8Bytes cs + utf8Bytes ds
    rw [ih, Nat.add_assoc]

theorem utf8ByteSize_ofList (cs : List Char) : (String.ofList cs).utf8ByteSize = utf8Bytes cs := by
  induction cs with
  | nil => rfl
  | cons c cs ih =>
    rw [String.ofList_cons, String.utf8ByteSize_append, String.utf8ByteSize_singleton, ih]
    rfl

theorem Cursor.advance_eq (cur : Cursor) (taken rest : List Char) :
    cur.advance taken rest = ⟨cur.offset + utf8Bytes taken, rest⟩ := rfl

namespace Descriptor

variable {α : Type} [Descriptor α]

/-- What was read stands between the two cursors, character by character and byte by byte. -/
structure Spans (written : List Char) (cur next : Cursor) : Prop where
  rest : cur.rest = written ++ next.rest
  offset : next.offset = cur.offset + utf8Bytes written

theorem Spans.append {w w' : List Char} {cur mid next : Cursor} (h : Spans w cur mid)
    (h' : Spans w' mid next) : Spans (w ++ w') cur next where
  rest := by rw [h.rest, h'.rest, List.append_assoc]
  offset := by rw [h'.offset, h.offset, utf8Bytes_append, Nat.add_assoc]

theorem Spans.advance {cur : Cursor} {taken rest : List Char} (h : cur.rest = taken ++ rest) :
    Spans taken cur (cur.advance taken rest) := ⟨h, rfl⟩

theorem Spans.cons_iff {c d : Char} {w rest : List Char} {cur next : Cursor}
    (h : cur.rest = d :: rest) :
    Spans (c :: w) cur next ↔ c = d ∧ Spans w (cur.advance [d] rest) next := by
  constructor
  · intro hspans
    obtain ⟨rfl, hrest⟩ := List.cons.inj (h.symm.trans hspans.rest)
    refine ⟨rfl, hrest, ?_⟩
    rw [hspans.offset, Cursor.advance_eq, Nat.add_assoc, ← utf8Bytes_append, singleton_append]
  · rintro ⟨rfl, hspans⟩
    exact Spans.append (.advance h) hspans

theorem Spans.unique {w : List Char} {cur next next' : Cursor} (h : Spans w cur next)
    (h' : Spans w cur next') : next = next' := by
  have hrest : next.rest = next'.rest := append_cancel_left (h.rest.symm.trans h'.rest)
  have hoffset : next.offset = next'.offset := h.offset.trans h'.offset.symm
  cases next
  cases next'
  cases hrest
  cases hoffset
  rfl

/-- Reading finds a type if and only if its text comes next, and takes exactly that text. -/
def Exact (α : Type) [Descriptor α] (Valid : α → Prop) : Prop :=
  ∀ (cur next : Cursor) (a : α), read cur = .ok a next ↔ Valid a ∧ Spans (chars a) cur next

end Descriptor

theorem Primitive.ofCode?_eq_some {c : Char} {p : Primitive} :
    Primitive.ofCode? c = some p ↔ c = p.code := by
  constructor
  · intro h
    have hcode := find?_some h
    exact (beq_iff_eq.mp hcode).symm
  · rintro rfl
    cases p <;> rfl

open Descriptor

theorem Primitive.exact : Exact Primitive fun _ => True := by
  intro cur next p
  show Primitive.read cur = .ok p next ↔ True ∧ Spans [p.code] cur next
  rw [true_and]
  unfold Primitive.read
  constructor
  · intro h
    split at h
    · cases h
    · next c rest hrest =>
      split at h
      · next p' hp =>
        cases h
        rw [← ofCode?_eq_some.mp hp]
        exact .advance hrest
      · cases h
  · intro h
    rw [h.rest, singleton_append]
    dsimp only
    rw [ofCode?_eq_some.mpr rfl]
    exact congrArg (EStateM.Result.ok p) (Spans.unique (.advance h.rest) h)

theorem ClassName.readBody_eq_ok {cur next : Cursor} {name : ClassName} :
    readBody cur = .ok name next ↔ name.Valid ∧ Spans (name.text.toList ++ [';']) cur next := by
  unfold readBody
  dsimp only
  constructor
  · intro h
    split at h
    · cases h
    · next mark rest hdrop =>
      split at h
      · next name' hname =>
        cases h
        obtain ⟨hvalid, htext⟩ := ofString_eq_ok.mp hname
        have hmark : (mark != ';') = false := by
          have := head?_dropWhile_not (· != ';') cur.rest
          simpa [hdrop] using this
        have hmark' : mark = ';' := by simpa using hmark
        subst hmark'
        refine ⟨hvalid, ?_⟩
        rw [htext, String.toList_ofList]
        refine .advance ?_
        rw [List.append_assoc, singleton_append, ← hdrop, takeWhile_append_dropWhile]
      · cases h
  · rintro ⟨hvalid, h⟩
    have hname := hvalid.no_semicolon
    have hrest : cur.rest = name.text.toList ++ ';' :: next.rest := by
      rw [h.rest, List.append_assoc, singleton_append]
    have htake : cur.rest.takeWhile (· != ';') = name.text.toList := by
      rw [hrest, takeWhile_append_of_pos hname, takeWhile_cons_of_neg (by decide),
        List.append_nil]
    have hdrop : cur.rest.dropWhile (· != ';') = ';' :: next.rest := by
      rw [hrest, dropWhile_append_of_pos hname, dropWhile_cons_of_neg (by decide)]
    rw [htake, hdrop, String.ofList_toList]
    dsimp only
    rw [ofString_eq_ok.mpr ⟨hvalid, rfl⟩]
    exact congrArg (EStateM.Result.ok name) (Spans.unique (.advance h.rest) h)

theorem ClassName.exact : Exact ClassName ClassName.Valid := by
  intro cur next name
  show read cur = .ok name next ↔
    name.Valid ∧ Spans ('L' :: (name.text.toList ++ [';'])) cur next
  unfold read
  split
  · next rest hrest =>
    rw [readBody_eq_ok]
    refine and_congr_right fun _ => ?_
    rw [Spans.cons_iff hrest]
    exact (and_iff_right rfl).symm
  · next hnot => exact ⟨nofun, fun ⟨_, h⟩ => absurd h.rest (hnot _)⟩

theorem Read.map_eq_ok {α β : Type} {f : α → β} {r : Read α} {b : β} {next : Cursor} :
    r.map f = .ok b next ↔ ∃ a, r = .ok a next ∧ f a = b := by
  cases r with
  | ok a cur =>
    constructor
    · intro h
      cases h
      exact ⟨a, rfl, rfl⟩
    · rintro ⟨a', h, rfl⟩
      cases h
      rfl
  | error flaw cur => exact ⟨nofun, fun ⟨_, h, _⟩ => by cases h⟩

namespace FieldType

theorem valid_array (t : FieldType) : (array t).Valid ↔ t.Valid := by cases t <;> rfl

theorem chars_array (t : FieldType) : (array t).chars = '[' :: t.chars := by cases t <;> rfl

theorem exists_of_chars (t : FieldType) :
    (∃ p, t = .prim p ∧ p.code ≠ '[' ∧ p.code ≠ 'L') ∨ (∃ name, t = object name) ∨
      ∃ e, t = array e := by
  cases t with
  | prim p => exact .inl ⟨p, rfl, by cases p <;> decide, by cases p <;> decide⟩
  | ref r =>
    cases r with
    | object name => exact .inr (.inl ⟨name, rfl⟩)
    | primArray p => exact .inr (.inr ⟨.prim p, rfl⟩)
    | refArray r => exact .inr (.inr ⟨.ref r, rfl⟩)

theorem readAt_eq_ok {offset : Nat} {rest : List Char} {t : FieldType} {next : Cursor} :
    readAt offset rest = .ok t next ↔ t.Valid ∧ Spans t.chars ⟨offset, rest⟩ next := by
  fun_induction readAt offset rest generalizing t with
  | case1 offset rest ih =>
    rw [Read.map_eq_ok]
    constructor
    · rintro ⟨e, he, rfl⟩
      obtain ⟨hvalid, hspans⟩ := ih.mp he
      refine ⟨(valid_array e).mpr hvalid, ?_⟩
      rw [chars_array]
      exact (Spans.cons_iff rfl).mpr ⟨rfl, hspans⟩
    · rintro ⟨hvalid, hspans⟩
      rcases exists_of_chars t with ⟨p, rfl, hp, _⟩ | ⟨name, rfl⟩ | ⟨e, rfl⟩
      · exact absurd ((Spans.cons_iff rfl).mp hspans).1 hp
      · exact absurd ((Spans.cons_iff rfl).mp hspans).1 (by decide)
      · rw [chars_array] at hspans
        have hrest := ((Spans.cons_iff rfl).mp hspans).2
        exact ⟨e, ih.mpr ⟨(valid_array e).mp hvalid, hrest⟩, rfl⟩
  | case2 offset rest =>
    rw [Read.map_eq_ok]
    constructor
    · rintro ⟨name, hname, rfl⟩
      obtain ⟨hvalid, hspans⟩ := readBody_eq_ok.mp hname
      exact ⟨hvalid, (Spans.cons_iff rfl).mpr ⟨rfl, hspans⟩⟩
    · rintro ⟨hvalid, hspans⟩
      rcases exists_of_chars t with ⟨p, rfl, _, hp⟩ | ⟨name, rfl⟩ | ⟨e, rfl⟩
      · exact absurd ((Spans.cons_iff rfl).mp hspans).1 hp
      · have hrest := ((Spans.cons_iff rfl).mp hspans).2
        exact ⟨name, readBody_eq_ok.mpr ⟨hvalid, hrest⟩, rfl⟩
      · rw [chars_array] at hspans
        exact absurd ((Spans.cons_iff rfl).mp hspans).1 (by decide)
  | case3 offset rest harray hname p cur hread =>
    have hp := (Primitive.exact _ _ _).mp hread
    constructor
    · intro h
      cases h
      exact hp
    · rintro ⟨_, hspans⟩
      rcases exists_of_chars t with ⟨p', rfl, _⟩ | ⟨name, rfl⟩ | ⟨e, rfl⟩
      · have hread' := (Primitive.exact _ _ p').mpr ⟨trivial, hspans⟩
        cases hread.symm.trans hread'
        rfl
      · exact absurd hspans.rest (hname _)
      · rw [chars_array] at hspans
        exact absurd hspans.rest (harray _)
  | case4 offset rest harray hname flaw cur hread =>
    refine ⟨nofun, fun ⟨_, hspans⟩ => ?_⟩
    rcases exists_of_chars t with ⟨p, rfl, _⟩ | ⟨name, rfl⟩ | ⟨e, rfl⟩
    · have hread' := (Primitive.exact _ _ p).mpr ⟨trivial, hspans⟩
      cases hread.symm.trans hread'
    · exact absurd hspans.rest (hname _)
    · rw [chars_array] at hspans
      exact absurd hspans.rest (harray _)

theorem exact : Exact FieldType FieldType.Valid := fun _ _ _ => readAt_eq_ok

theorem chars_ne_paren (t : FieldType) : ∃ c cs, t.chars = c :: cs ∧ c ≠ ')' ∧ c ≠ 'V' := by
  rcases exists_of_chars t with ⟨p, rfl, _⟩ | ⟨name, rfl⟩ | ⟨e, rfl⟩
  · exact ⟨p.code, [], rfl, by cases p <;> decide, by cases p <;> decide⟩
  · exact ⟨'L', _, rfl, by decide, by decide⟩
  · exact ⟨'[', _, chars_array e, by decide, by decide⟩

end FieldType

theorem RefType.exact : Exact RefType RefType.Valid := by
  intro cur next r
  show RefType.read cur = .ok r next ↔ r.Valid ∧ Spans r.chars cur next
  unfold RefType.read
  split
  · next rest hrest =>
    rw [Read.map_eq_ok]
    constructor
    · rintro ⟨e, he, rfl⟩
      obtain ⟨hvalid, hspans⟩ := (FieldType.exact _ _ _).mp he
      refine ⟨(FieldType.valid_array e).mpr hvalid, ?_⟩
      show Spans (FieldType.array e).chars cur next
      rw [FieldType.chars_array]
      exact (Spans.cons_iff hrest).mpr ⟨rfl, hspans⟩
    · rintro ⟨hvalid, hspans⟩
      rcases FieldType.exists_of_chars (.ref r) with ⟨p, h, _⟩ | ⟨name, h⟩ | ⟨e, h⟩
      · cases h
      · cases h
        exact absurd ((Spans.cons_iff hrest).mp hspans).1 (by decide)
      · cases h
        have hspans : Spans (FieldType.array e).chars cur next := hspans
        rw [FieldType.chars_array] at hspans
        refine ⟨e, (FieldType.exact _ _ _).mpr ⟨(FieldType.valid_array e).mp hvalid, ?_⟩, rfl⟩
        exact ((Spans.cons_iff hrest).mp hspans).2
  · next rest hrest =>
    rw [Read.map_eq_ok]
    constructor
    · rintro ⟨name, hname, rfl⟩
      obtain ⟨hvalid, hspans⟩ := readBody_eq_ok.mp hname
      exact ⟨hvalid, (Spans.cons_iff hrest).mpr ⟨rfl, hspans⟩⟩
    · rintro ⟨hvalid, hspans⟩
      rcases r with name | p | r
      · refine ⟨name, readBody_eq_ok.mpr ⟨hvalid, ?_⟩, rfl⟩
        exact ((Spans.cons_iff hrest).mp hspans).2
      · exact absurd ((Spans.cons_iff hrest).mp hspans).1 (by decide)
      · exact absurd ((Spans.cons_iff hrest).mp hspans).1 (by decide)
  · next harray hname =>
    refine ⟨nofun, fun ⟨_, hspans⟩ => ?_⟩
    rcases r with name | p | r
    · exact absurd hspans.rest (hname _)
    · exact absurd hspans.rest (harray _)
    · exact absurd hspans.rest (harray _)

namespace MethodType

theorem readParams_succ {rounds : Nat} {seen : List FieldType} {cur : Cursor}
    (h : ∀ rest, cur.rest ≠ ')' :: rest) :
    readParams (rounds + 1) seen cur =
      match FieldType.read cur with
      | .ok type next => readParams rounds (type :: seen) next
      | .error flaw next => .error flaw next := by
  rw [readParams]
  split
  · exact absurd ‹_› (h _)
  · rfl

theorem readParams_of_spans {params : List FieldType} (hvalid : ∀ param ∈ params, param.Valid)
    {rounds : Nat} (hrounds : params.length < rounds) (seen : List FieldType) {cur next : Cursor}
    (h : Spans (params.flatMap FieldType.chars ++ [')']) cur next) :
    readParams rounds seen cur = .ok (seen.reverse ++ params) next := by
  induction params generalizing rounds seen cur with
  | nil =>
    obtain ⟨rounds, rfl⟩ := Nat.exists_eq_add_one.mpr hrounds
    rw [readParams, h.rest, List.append_nil]
    exact congrArg (EStateM.Result.ok _) (Spans.unique (.advance h.rest) h)
  | cons param params ih =>
    obtain ⟨rounds, rfl⟩ := Nat.exists_eq_add_one.mpr (Nat.zero_lt_of_lt hrounds)
    obtain ⟨c, cs, hchars, hparen, _⟩ := param.chars_ne_paren
    rw [flatMap_cons, List.append_assoc] at h
    have hhere : Spans param.chars cur (cur.advance param.chars
        (params.flatMap FieldType.chars ++ [')'] ++ next.rest)) :=
      .advance (by rw [h.rest]; simp)
    have hread := (FieldType.exact _ _ _).mpr ⟨hvalid param (.head ..), hhere⟩
    have hread : FieldType.read cur = _ := hread
    rw [readParams_succ, hread]
    · dsimp only
      rw [ih (fun p hp => hvalid p (.tail _ hp)) (Nat.lt_of_succ_lt_succ hrounds)
        (param :: seen) ⟨rfl, ?_⟩]
      · simp
      · rw [h.offset, Cursor.advance_eq, utf8Bytes_append, Nat.add_assoc]
    · intro rest hrest
      rw [h.rest, hchars, cons_append, cons_append] at hrest
      exact hparen (List.cons.inj hrest).1

theorem spans_of_readParams {rounds : Nat} {seen params : List FieldType} {cur next : Cursor}
    (h : readParams rounds seen cur = .ok params next) :
    ∃ more, params = seen.reverse ++ more ∧ (∀ param ∈ more, param.Valid) ∧
      Spans (more.flatMap FieldType.chars ++ [')']) cur next := by
  fun_induction readParams rounds seen cur with
  | case1 => cases h
  | case2 _ seen cur rest hrest =>
    cases h
    exact ⟨[], (List.append_nil _).symm, nofun, .advance hrest⟩
  | case3 rounds seen cur type mid hread _ ih =>
    obtain ⟨hvalid, hspans⟩ := (FieldType.exact _ _ _).mp hread
    obtain ⟨more, rfl, hmore, hrest⟩ := ih h
    refine ⟨type :: more, by simp, forall_mem_cons.mpr ⟨hvalid, hmore⟩, ?_⟩
    rw [flatMap_cons, List.append_assoc]
    exact hspans.append hrest
  | case4 => cases h

def returnChars : Option FieldType → List Char
  | none => ['V']
  | some type => type.chars

theorem readReturns_eq_ok {cur next : Cursor} {returns : Option FieldType} :
    readReturns cur = .ok returns next ↔
      (∀ type, returns = some type → type.Valid) ∧ Spans (returnChars returns) cur next := by
  unfold readReturns
  split
  · next rest hrest =>
    constructor
    · intro h
      cases h
      exact ⟨nofun, .advance hrest⟩
    · rintro ⟨_, hspans⟩
      cases returns with
      | none => exact congrArg (EStateM.Result.ok _) (Spans.unique (.advance hrest) hspans)
      | some type =>
        obtain ⟨c, cs, hchars, _, hvoid⟩ := type.chars_ne_paren
        have hspans : Spans type.chars cur next := hspans
        rw [hchars] at hspans
        exact absurd ((Spans.cons_iff hrest).mp hspans).1 hvoid
  · next hnot =>
    rw [Read.map_eq_ok]
    constructor
    · rintro ⟨type, htype, rfl⟩
      obtain ⟨hvalid, hspans⟩ := (FieldType.exact _ _ _).mp htype
      refine ⟨fun _ h => ?_, hspans⟩
      cases h
      exact hvalid
    · rintro ⟨hvalid, hspans⟩
      cases returns with
      | none => exact absurd hspans.rest (hnot _)
      | some type => exact ⟨type, (FieldType.exact _ _ _).mpr ⟨hvalid type rfl, hspans⟩, rfl⟩

theorem chars_eq (type : MethodType) :
    type.chars = ['('] ++ ((type.params.flatMap FieldType.chars ++ [')']) ++
      returnChars type.returns) := by
  rw [chars, singleton_append, List.append_assoc, singleton_append]
  rfl

theorem length_le_flatMap_chars (params : List FieldType) :
    params.length ≤ (params.flatMap FieldType.chars).length := by
  induction params with
  | nil => exact Nat.le_refl _
  | cons param params ih =>
    obtain ⟨c, cs, hchars, _⟩ := param.chars_ne_paren
    rw [flatMap_cons, length_append, length_cons, hchars, length_cons]
    omega

theorem exact : Exact MethodType MethodType.Valid := by
  intro cur next type
  show MethodType.read cur = .ok type next ↔ type.Valid ∧ Spans type.chars cur next
  rw [chars_eq]
  unfold MethodType.read
  split
  · next rest hrest =>
    constructor
    · intro h
      split at h
      · cases h
      · next params mid hparams =>
        obtain ⟨returns, hreturns, rfl⟩ := Read.map_eq_ok.mp h
        obtain ⟨more, rfl, hvalid, hspans⟩ := spans_of_readParams hparams
        obtain ⟨hvalid', hspans'⟩ := readReturns_eq_ok.mp hreturns
        exact ⟨⟨hvalid, hvalid'⟩, (Spans.advance hrest).append (hspans.append hspans')⟩
    · rintro ⟨⟨hvalid, hvalid'⟩, hspans⟩
      obtain ⟨_, hspans⟩ := (Spans.cons_iff hrest).mp (singleton_append ▸ hspans)
      have hlong : type.params.length < rest.length + 1 := by
        have hlen := length_le_flatMap_chars type.params
        have hlen' : rest.length = _ := congrArg List.length hspans.rest
        simp only [length_append, length_cons, length_nil] at hlen'
        omega
      have hmid : Spans (type.params.flatMap FieldType.chars ++ [')']) (cur.advance ['('] rest) _ :=
        .advance (hspans.rest.trans (List.append_assoc ..))
      rw [readParams_of_spans hvalid hlong [] hmid]
      refine Read.map_eq_ok.mpr ⟨type.returns, readReturns_eq_ok.mpr ⟨hvalid', rfl, ?_⟩, rfl⟩
      rw [hspans.offset, hmid.offset, utf8Bytes_append, Nat.add_assoc]
  · next hnot => exact ⟨nofun, fun ⟨_, h⟩ => absurd h.rest (hnot _)⟩

end MethodType

namespace Descriptor

variable {α : Type} [Descriptor α] {Valid : α → Prop}

/-- Descriptors of a kind stand for its valid types, one for each. -/
structure Faithful (α : Type) [Descriptor α] (Valid : α → Prop) : Prop where
  /-- A type is read back from in front of anything, and the reader stops behind it. -/
  read : ∀ a, Valid a → ∀ (offset : Nat) (rest : String),
    Descriptor.read ⟨offset, (render a ++ rest).toList⟩ =
      .ok a ⟨offset + (render a).utf8ByteSize, rest.toList⟩
  parse_render : ∀ a, Valid a → parse (render a) = .ok a
  /-- Whatever is accepted is the descriptor of what it is taken for. -/
  render_parse : ∀ text (a : α), parse text = .ok a → Valid a ∧ render a = text
  render_injective : ∀ a b, Valid a → Valid b → render a = render b → a = b

theorem parse_eq_ok {text : String} {a : α} :
    parse text = .ok a ↔ ∃ offset, read (Cursor.start text) = .ok a ⟨offset, []⟩ := by
  unfold parse
  constructor
  · intro h
    split at h
    · cases h
    · next a' cur hread =>
      split at h
      · next hrest =>
        cases h
        refine ⟨cur.offset, ?_⟩
        rw [hread, ← hrest]
      · cases h
  · rintro ⟨offset, hread⟩
    rw [hread]

theorem Exact.parse_eq_ok_iff (h : Exact α Valid) {text : String} {a : α} :
    parse text = .ok a ↔ Valid a ∧ render a = text := by
  rw [parse_eq_ok]
  constructor
  · rintro ⟨offset, hread⟩
    obtain ⟨hvalid, hspans⟩ := (h _ _ _).mp hread
    refine ⟨hvalid, ?_⟩
    rw [render, ← List.append_nil (chars a), ← hspans.rest]
    exact String.ofList_toList
  · rintro ⟨hvalid, rfl⟩
    refine ⟨_, (h _ _ _).mpr ⟨hvalid, ?_, rfl⟩⟩
    rw [List.append_nil]
    exact String.toList_ofList

theorem Exact.faithful (h : Exact α Valid) : Faithful α Valid where
  read a ha offset rest := by
    refine (h _ _ _).mpr ⟨ha, ?_, ?_⟩
    · rw [String.toList_append, render, String.toList_ofList]
    · rw [render, utf8ByteSize_ofList]
  parse_render a ha := h.parse_eq_ok_iff.mpr ⟨ha, rfl⟩
  render_parse text a htext := h.parse_eq_ok_iff.mp htext
  render_injective a b ha hb heq := by
    have hparse := h.parse_eq_ok_iff.mpr ⟨ha, heq⟩
    rw [h.parse_eq_ok_iff.mpr ⟨hb, rfl⟩] at hparse
    cases hparse
    rfl

end Descriptor

theorem descriptors_faithful :
    Faithful Primitive (fun _ => True) ∧ Faithful ClassName ClassName.Valid ∧
      Faithful RefType RefType.Valid ∧ Faithful FieldType FieldType.Valid ∧
      Faithful MethodType MethodType.Valid :=
  ⟨Primitive.exact.faithful, exact.faithful, RefType.exact.faithful,
    FieldType.exact.faithful, MethodType.exact.faithful⟩

end ClassAssembler
