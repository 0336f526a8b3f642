import ClassAssembler.Proofs.Code.Paths
import ClassAssembler.Proofs.Layout.Jumps

/-!
# Recording a plot

What a recorder knows after each point: which labels were placed, and where, which labels were
named, and what was recorded.
-/

namespace ClassAssembler

open List Point

namespace Point

def isInsn : Point → Bool
  | insn _ _ _ | branch _ _ => true
  | _ => false

theorem label?_eq_some_iff {p : Point} {l : Label} :
    p.label? = some l ↔ p.code? = some (.label l) := by
  cases p <;> simp [label?, code?]

theorem exists_branch {p : Point} {e : Entry} {t : Label} (he : p.code? = some e)
    (ht : t ∈ e.targets) : ∃ br site, p = .branch br site ∧ e = .branch br := by
  cases p with
  | branch br site =>
    cases he
    exact ⟨br, site, rfl, rfl⟩
  | label | insn =>
    cases he
    cases ht
  | _ => cases he

theorem isInsn_iff {p : Point} : p.isInsn ↔ ∃ e, p.code? = some e ∧ ¬ e.isLabel := by
  cases p <;> simp [isInsn, code?, Entry.isLabel]

theorem label_unique {ps : List Point} (h : (placed ps).Nodup) {i j : Nat} {l : Label}
    {p q : Point} (hi : ps[i]? = some p) (hp : p.label? = some l) (hj : ps[j]? = some q)
    (hq : q.label? = some l) : i = j := by
  have hpairs := pairwise_iff_getElem.mp (pairwise_filterMap.mp h)
  obtain ⟨hilt, hi⟩ := List.getElem?_eq_some_iff.mp hi
  obtain ⟨hjlt, hj⟩ := List.getElem?_eq_some_iff.mp hj
  rcases Nat.lt_trichotomy i j with hlt | heq | hgt
  · exact absurd rfl (hpairs i j hilt hjlt hlt l (by rw [hi, hp]) l (by rw [hj, hq]))
  · exact heq
  · exact absurd rfl (hpairs j i hjlt hilt hgt l (by rw [hj, hq]) l (by rw [hi, hp]))

end Point

namespace Recorder

/-- A recorder that takes the next point for reachable, if it is told to. -/
def wake (force : Bool) (r : Recorder) : Recorder := { r with reachable := force || r.reachable }

def point (r : Recorder) : Point → Recorder
  | .label l _ =>
      { r with
        placed := r.placed.insert l r.position
        reachable := r.reachable || r.referenced.contains l
        entries := r.entries.push (.label l) }
  | .insn i _ _ => r.insn i
  | .branch b _ => r.branch b
  | .protect start stop holes handler caught => r.protect start stop holes handler caught
  | .reads _ | .yields _ => r

def run (force : Bool) (r : Recorder) (ps : List Point) : Recorder :=
  ps.foldl (fun r p => (r.wake force).point p) r

theorem wake_false (r : Recorder) : r.wake false = r := rfl

section point

variable (r : Recorder) (start stop handler : Label) (holes : List (Label × Label))
  (caught : Option ClassName)

def addRanges (r : Recorder) (handler : Label) (caught : Option ClassName)
    (parts : List (Label × Label)) : Recorder :=
  parts.foldl (fun r part => r.range { start := part.1, stop := part.2, handler, caught }) r

theorem protect_eq : r.protect start stop holes handler caught =
    r.addRanges handler caught ((between start stop holes).filter r.covers) := rfl

section

variable (parts : List (Label × Label))

theorem addRanges_fields :
    (r.addRanges handler caught parts).entries = r.entries ∧
      (r.addRanges handler caught parts).position = r.position ∧
      (r.addRanges handler caught parts).reachable = r.reachable ∧
      (r.addRanges handler caught parts).placed = r.placed ∧
      (r.addRanges handler caught parts).maxLocals = r.maxLocals := by
  induction parts generalizing r with
  | nil => exact ⟨rfl, rfl, rfl, rfl, rfl⟩
  | cons part parts ih => exact ih (r.range _)

theorem ranges_addRanges :
    (r.addRanges handler caught parts).ranges.toList = r.ranges.toList ++
      parts.map fun part => { start := part.1, stop := part.2, handler, caught } := by
  induction parts generalizing r with
  | nil => simp [addRanges]
  | cons part parts ih =>
    refine (ih (r.range _)).trans ?_
    simp [range]

theorem referenced_addRanges (l : Label) :
    (r.addRanges handler caught parts).referenced.contains l ↔
      r.referenced.contains l ∨ parts ≠ [] ∧ l = handler := by
  induction parts generalizing r with
  | nil => simp [addRanges]
  | cons part parts ih =>
    have hinsert : (r.referenced.insert handler).contains l ↔
        r.referenced.contains l ∨ l = handler := by
      rw [Std.HashSet.contains_insert, Bool.or_eq_true, beq_iff_eq, or_comm, @eq_comm _ handler]
    refine (ih (r.range _)).trans ((or_congr_left hinsert).trans ⟨?_, ?_⟩)
    · rintro ((h | h) | ⟨_, h⟩)
      · exact .inl h
      · exact .inr ⟨cons_ne_nil _ _, h⟩
      · exact .inr ⟨cons_ne_nil _ _, h⟩
    · rintro (h | ⟨_, h⟩)
      · exact .inl (.inl h)
      · exact .inl (.inr h)

end

def Names (r : Recorder) (l : Label) : Point → Prop
  | .branch b _ => r.reachable ∧ l ∈ b.targets
  | .protect start stop holes handler _ =>
      l = handler ∧ ∃ part ∈ between start stop holes, r.covers part
  | _ => False

theorem referenced_point (p : Point) (l : Label) :
    (r.point p).referenced.contains l ↔ r.referenced.contains l ∨ r.Names l p := by
  cases p with
  | label l' status => simp [point, Names]
  | insn i role site =>
    show (r.insn i).referenced.contains l ↔ _
    unfold insn
    split <;> simp [Names]
  | branch b site =>
    show (r.branch b).referenced.contains l ↔ _
    unfold branch
    split
    · rename_i h
      simp [Names, h, Std.HashSet.contains_insertMany_list]
    · rename_i h
      simp [Names, h]
  | protect start stop holes handler caught =>
    show (r.protect start stop holes handler caught).referenced.contains l ↔ _
    rw [protect_eq, referenced_addRanges]
    refine or_congr_right ⟨fun ⟨h, hl⟩ => ⟨hl, ?_⟩, fun ⟨hl, part, hmem, hcovers⟩ => ⟨?_, hl⟩⟩
    · obtain ⟨part, hpart⟩ := exists_mem_of_ne_nil _ h
      exact ⟨part, (mem_filter.mp hpart).1, (mem_filter.mp hpart).2⟩
    · exact ne_nil_of_mem (mem_filter.mpr ⟨hmem, hcovers⟩)
  | reads v => simp [point, Names]
  | yields v => simp [point, Names]

theorem placed_point (p : Point) :
    (r.point p).placed = match p.label? with
      | some l => r.placed.insert l r.position
      | none => r.placed := by
  cases p with
  | insn i role site =>
    show (r.insn i).placed = r.placed
    unfold insn
    split <;> rfl
  | branch b site =>
    show (r.branch b).placed = r.placed
    unfold branch
    split <;> rfl
  | protect start stop holes handler caught => exact (r.addRanges_fields handler caught _).2.2.2.1
  | _ => rfl

theorem position_point (p : Point) :
    (r.point p).position = r.position + if p.isInsn && r.reachable then 1 else 0 := by
  cases p with
  | insn i role site =>
    show (r.insn i).position = _
    unfold insn
    split <;> simp_all [isInsn]
  | branch b site =>
    show (r.branch b).position = _
    unfold branch
    split <;> simp_all [isInsn]
  | protect start stop holes handler caught =>
    exact (r.addRanges_fields handler caught _).2.1
  | _ => rfl

theorem reachable_point (p : Point) :
    (r.point p).reachable = match p with
      | .label l _ => r.reachable || r.referenced.contains l
      | .branch b _ => r.reachable && b.fallsThrough
      | _ => r.reachable := by
  cases p with
  | insn i role site =>
    show (r.insn i).reachable = _
    unfold insn
    split <;> rfl
  | branch b site =>
    show (r.branch b).reachable = _
    unfold branch
    split <;> simp_all
  | protect start stop holes handler caught => exact (r.addRanges_fields handler caught _).2.2.1
  | _ => rfl

theorem entries_point (p : Point) : (r.point p).entries.toList =
    r.entries.toList ++ p.code?.toList.filter fun e => e.isLabel || r.reachable := by
  cases p with
  | insn i role site =>
    show (r.insn i).entries.toList = _
    unfold insn
    split <;> simp_all [code?, Entry.isLabel]
  | branch b site =>
    show (r.branch b).entries.toList = _
    unfold branch
    split <;> simp_all [code?, Entry.isLabel]
  | protect start stop holes handler caught =>
    rw [point, protect_eq, (addRanges_fields _ _ _ _).1]
    simp [code?]
  | _ => simp [point, code?, Entry.isLabel]

def newRanges (r : Recorder) : Point → List ExceptionRange
  | .protect start stop holes handler caught =>
      ((between start stop holes).filter r.covers).map
        fun part => { start := part.1, stop := part.2, handler, caught }
  | _ => []

theorem ranges_point (p : Point) :
    (r.point p).ranges.toList = r.ranges.toList ++ r.newRanges p := by
  cases p with
  | protect start stop holes handler caught => exact ranges_addRanges _ _ _ _
  | insn i role site =>
    show (r.insn i).ranges.toList = _
    unfold insn
    split <;> simp [newRanges]
  | branch b site =>
    show (r.branch b).ranges.toList = _
    unfold branch
    split <;> simp [newRanges]
  | _ => simp [point, newRanges]

end point

section run

variable (force : Bool) (free params : Nat) (ps : List Point)

def upTo (i : Nat) : Recorder := (start free params).run force (ps.take i)

def Live (i : Nat) : Prop := ((upTo force free params ps i).wake force).reachable = true

variable {force free params ps} {i j : Nat} {p : Point}

theorem upTo_succ (hp : ps[i]? = some p) :
    upTo force free params ps (i + 1) = ((upTo force free params ps i).wake force).point p := by
  rw [upTo, take_add_one, hp, run, foldl_append]
  rfl

theorem upTo_length : upTo force free params ps ps.length = (start free params).run force ps := by
  rw [upTo, take_length]

theorem upTo_of_length_le (h : ps.length ≤ i) :
    upTo force free params ps (i + 1) = upTo force free params ps i := by
  rw [upTo, upTo, take_of_length_le h, take_of_length_le (Nat.le_succ_of_le h)]

def Recorded (force : Bool) (free params : Nat) (ps : List Point) (i : Nat) : Prop :=
  ∃ p, ps[i]? = some p ∧ p.isInsn ∧ Live force free params ps i

theorem position_succ (h : Recorded force free params ps i) :
    (upTo force free params ps (i + 1)).position = (upTo force free params ps i).position + 1 := by
  obtain ⟨p, hp, hinsn, hlive⟩ := h
  rw [upTo_succ hp, position_point, hinsn, show _ = true from hlive]
  rfl

theorem position_same (h : ¬ Recorded force free params ps i) :
    (upTo force free params ps (i + 1)).position = (upTo force free params ps i).position := by
  cases hp : ps[i]? with
  | none => rw [upTo_of_length_le (List.getElem?_eq_none_iff.mp hp)]
  | some p =>
    rw [upTo_succ hp, position_point, if_neg]
    · rfl
    · intro hboth
      rw [Bool.and_eq_true] at hboth
      exact h ⟨p, hp, hboth.1, hboth.2⟩

theorem position_le (h : i ≤ j) :
    (upTo force free params ps i).position ≤ (upTo force free params ps j).position := by
  induction h with
  | refl => exact Nat.le_refl _
  | @step j _ ih =>
    by_cases hrec : Recorded force free params ps j
    · rw [Nat.succ_eq_add_one, position_succ hrec]
      omega
    · rw [Nat.succ_eq_add_one, position_same hrec]
      exact ih

theorem position_lt_iff (h : i ≤ j) :
    (upTo force free params ps i).position < (upTo force free params ps j).position ↔
      ∃ k, i ≤ k ∧ k < j ∧ Recorded force free params ps k := by
  induction h with
  | refl => exact ⟨fun h => absurd h (Nat.lt_irrefl _), fun ⟨k, hik, hki, _⟩ => by omega⟩
  | @step j hij ih =>
    by_cases hrec : Recorded force free params ps j
    · have hle : (upTo force free params ps i).position ≤ (upTo force free params ps j).position :=
        position_le hij
      rw [Nat.succ_eq_add_one, position_succ hrec]
      exact ⟨fun _ => ⟨j, hij, Nat.lt_succ_self j, hrec⟩, fun _ => by omega⟩
    · rw [Nat.succ_eq_add_one, position_same hrec, ih]
      refine ⟨fun ⟨k, hik, hkj, hk⟩ => ⟨k, hik, by omega, hk⟩, fun ⟨k, hik, hkj, hk⟩ => ?_⟩
      refine ⟨k, hik, ?_, hk⟩
      rcases Nat.lt_succ_iff_lt_or_eq.mp hkj with hlt | rfl
      · exact hlt
      · exact absurd hk hrec

theorem exists_lt_succ_iff {P : Nat → Point → Prop} :
    (∃ k < i + 1, ∃ p, ps[k]? = some p ∧ P k p) ↔
      (∃ k < i, ∃ p, ps[k]? = some p ∧ P k p) ∨ ∃ p, ps[i]? = some p ∧ P i p := by
  constructor
  · rintro ⟨k, hk, p, hp, h⟩
    rcases Nat.lt_succ_iff_lt_or_eq.mp hk with hlt | rfl
    · exact .inl ⟨k, hlt, p, hp, h⟩
    · exact .inr ⟨p, hp, h⟩
  · rintro (⟨k, hk, p, hp, h⟩ | ⟨p, hp, h⟩)
    · exact ⟨k, Nat.lt_succ_of_lt hk, p, hp, h⟩
    · exact ⟨i, Nat.lt_succ_self i, p, hp, h⟩

theorem referenced_iff {l : Label} :
    (upTo force free params ps i).referenced.contains l ↔
      ∃ k < i, ∃ p, ps[k]? = some p ∧ ((upTo force free params ps k).wake force).Names l p := by
  induction i with
  | zero => exact ⟨fun h => by simp [upTo, run, start] at h, fun ⟨k, hk, _⟩ => by omega⟩
  | succ i ih =>
    rw [exists_lt_succ_iff, ← ih]
    cases hp : ps[i]? with
    | none =>
      rw [upTo_of_length_le (List.getElem?_eq_none_iff.mp hp)]
      exact ⟨.inl, fun h => h.elim id fun ⟨p, hp, _⟩ => by cases hp⟩
    | some p =>
      rw [upTo_succ hp, referenced_point]
      refine or_congr_right ⟨fun h => ⟨p, rfl, h⟩, fun ⟨p', hp', h⟩ => ?_⟩
      cases hp'
      exact h

theorem placed_iff (hnodup : (Point.placed ps).Nodup) {l : Label} {x : Nat} :
    (upTo force free params ps i).placed[l]? = some x ↔
      ∃ k < i, ∃ p, ps[k]? = some p ∧ p.label? = some l ∧
        (upTo force free params ps k).position = x := by
  induction i with
  | zero => exact ⟨fun h => by simp [upTo, run, start] at h, fun ⟨k, hk, _⟩ => by omega⟩
  | succ i ih =>
    rw [exists_lt_succ_iff]
    cases hp : ps[i]? with
    | none =>
      rw [upTo_of_length_le (List.getElem?_eq_none_iff.mp hp), ih]
      exact ⟨.inl, fun h => h.elim id fun ⟨p, hp, _⟩ => by cases hp⟩
    | some p =>
      rw [upTo_succ hp, placed_point]
      cases hl : p.label? with
      | none =>
        refine ih.trans ⟨.inl, fun h => h.elim id fun ⟨p', hp', hl', _⟩ => ?_⟩
        cases hp'
        rw [hl] at hl'
        cases hl'
      | some l' =>
        show (Std.HashMap.insert _ l' _)[l]? = some x ↔ _
        rw [Std.HashMap.getElem?_insert]
        by_cases heq : l' = l
        · subst heq
          rw [if_pos (beq_self_eq_true l')]
          constructor
          · intro h
            cases h
            exact .inr ⟨p, rfl, hl, rfl⟩
          · rintro (⟨k, hk, q, hq, hlq, _⟩ | ⟨q, hq, _, hx⟩)
            · cases label_unique hnodup hq hlq hp hl
              exact absurd hk (Nat.lt_irrefl _)
            · exact congrArg some hx
        · rw [if_neg (by simpa using heq)]
          refine ih.trans ⟨.inl, fun h => h.elim id fun ⟨p', hp', hl', _⟩ => ?_⟩
          cases hp'
          rw [hl] at hl'
          cases hl'
          exact absurd rfl heq

theorem covers_iff (hnodup : (Point.placed ps).Nodup) {part : Label × Label} :
    ((upTo force free params ps i).wake force).covers part ↔
      ∃ x y, x < i ∧ y < i ∧ Stands code? ps x (.label part.1) ∧
        Stands code? ps y (.label part.2) ∧
        ∃ k, x < k ∧ k < y ∧ Recorded force free params ps k := by
  have hplaced : ∀ {l : Label} {pos : Nat}, (upTo force free params ps i).placed[l]? = some pos ↔
      ∃ x < i, Stands code? ps x (.label l) ∧
        (upTo force free params ps x).position = pos := by
    intro l pos
    rw [placed_iff hnodup]
    constructor
    · rintro ⟨k, hk, p, hp, hl, hpos⟩
      exact ⟨k, hk, ⟨p, hp, label?_eq_some_iff.mp hl⟩, hpos⟩
    · rintro ⟨k, hk, ⟨p, hp, hl⟩, hpos⟩
      exact ⟨k, hk, p, hp, label?_eq_some_iff.mpr hl, hpos⟩
  have hcovers : ((upTo force free params ps i).wake force).covers part ↔
      ∃ a c, (upTo force free params ps i).placed[part.1]? = some a ∧
        (upTo force free params ps i).placed[part.2]? = some c ∧ a < c := by
    show (upTo force free params ps i).covers part ↔ _
    unfold covers labelPosition?
    cases (upTo force free params ps i).placed[part.1]? with
    | none => simp
    | some a =>
      cases (upTo force free params ps i).placed[part.2]? with
      | none => simp
      | some c => simp
  rw [hcovers]
  constructor
  · rintro ⟨a, c, ha, hc, hlt⟩
    obtain ⟨x, hx, hsx, rfl⟩ := hplaced.mp ha
    obtain ⟨y, hy, hsy, rfl⟩ := hplaced.mp hc
    have hxy : x ≤ y := by
      rcases Nat.lt_or_ge y x with hgt | hle
      · exact absurd (position_le (Nat.le_of_lt hgt)) (Nat.not_le.mpr hlt)
      · exact hle
    obtain ⟨k, hxk, hky, hk⟩ := (position_lt_iff hxy).mp hlt
    refine ⟨x, y, hx, hy, hsx, hsy, k, ?_, hky, hk⟩
    -- A label is no instruction.
    rcases Nat.lt_or_eq_of_le hxk with hlt | rfl
    · exact hlt
    · obtain ⟨p, hp, hinsn, _⟩ := hk
      obtain ⟨e, he, hlabel⟩ := isInsn_iff.mp hinsn
      cases hsx.unique ⟨p, hp, he⟩
      exact absurd rfl hlabel
  · rintro ⟨x, y, hx, hy, hsx, hsy, k, hxk, hky, hk⟩
    exact ⟨_, _, hplaced.mpr ⟨x, hx, hsx, rfl⟩, hplaced.mpr ⟨y, hy, hsy, rfl⟩,
      (position_lt_iff (Nat.le_of_lt (Nat.lt_trans hxk hky))).mpr ⟨k, Nat.le_of_lt hxk, hky, hk⟩⟩

def rangesAt (force : Bool) (free params : Nat) (ps : List Point) (i : Nat) : List ExceptionRange :=
  ps[i]?.toList.flatMap ((upTo force free params ps i).wake force).newRanges

theorem upTo_eq_flatMap {α : Type} (f : Recorder → List α) {g : Nat → List α}
    (hstart : f (start free params) = []) (hnone : ∀ k, ps[k]? = none → g k = [])
    (hsome : ∀ k p, ps[k]? = some p →
      f (((upTo force free params ps k).wake force).point p) = f (upTo force free params ps k)
        ++ g k) :
    f (upTo force free params ps i) = (List.range i).flatMap g := by
  induction i with
  | zero => exact hstart
  | succ i ih =>
    rw [range_succ, flatMap_append, ← ih, flatMap_singleton]
    cases hp : ps[i]? with
    | none => rw [upTo_of_length_le (List.getElem?_eq_none_iff.mp hp), hnone i hp, List.append_nil]
    | some p => rw [upTo_succ hp, hsome i p hp]

theorem filterMap_take {α : Type} (f : Point → Option α) (i : Nat) :
    (ps.take i).filterMap f = (List.range i).flatMap fun k => (ps[k]?.bind f).toList := by
  induction i with
  | zero => rfl
  | succ i ih =>
    rw [take_add_one, filterMap_append, ih, range_succ, flatMap_append,
      flatMap_singleton]
    cases ps[i]? with
    | none => rfl
    | some p => cases h : f p <;> simp [h]

theorem ranges_eq : (upTo force free params ps i).ranges.toList =
    (List.range i).flatMap (rangesAt force free params ps) :=
  upTo_eq_flatMap (·.ranges.toList) rfl (fun k hp => by simp [rangesAt, hp])
    fun k p hp => by simp [rangesAt, hp, ranges_point, wake]

def entriesAt (force : Bool) (free params : Nat) (ps : List Point) (i : Nat) : List Entry :=
  (ps[i]?.bind code?).toList.filter fun e =>
    e.isLabel || ((upTo force free params ps i).wake force).reachable

theorem entries_eq : (upTo force free params ps i).entries.toList =
    (List.range i).flatMap (entriesAt force free params ps) :=
  upTo_eq_flatMap (·.entries.toList) rfl (fun k hp => by simp [entriesAt, hp])
    fun k p hp => by simp [entriesAt, hp, entries_point, wake]

theorem mem_ranges_iff (hnodup : (Point.placed ps).Nodup) {range : ExceptionRange} :
    range ∈ (upTo force free params ps i).ranges.toList ↔
      ∃ k < i, ∃ start stop holes, ps[k]? = some (.protect start stop holes range.handler
        range.caught) ∧ (range.start, range.stop) ∈ between start stop holes ∧
        ∃ x y, x < k ∧ y < k ∧ Stands code? ps x (.label range.start) ∧
          Stands code? ps y (.label range.stop) ∧
          ∃ m, x < m ∧ m < y ∧ Recorded force free params ps m := by
  rw [ranges_eq, mem_flatMap]
  constructor
  · rintro ⟨k, hk, hr⟩
    obtain ⟨p, hp, hr⟩ := mem_flatMap.mp hr
    have hp : ps[k]? = some p := Option.mem_toList.mp hp
    cases p with
    | protect start stop holes handler caught =>
      obtain ⟨part, hpart, rfl⟩ := mem_map.mp hr
      obtain ⟨hbetween, hcovers⟩ := mem_filter.mp hpart
      exact ⟨k, mem_range.mp hk, start, stop, holes, hp, hbetween, (covers_iff hnodup).mp hcovers⟩
    | _ => cases hr
  · rintro ⟨k, hk, start, stop, holes, hp, hbetween, hcovers⟩
    refine ⟨k, mem_range.mpr hk, mem_flatMap.mpr ⟨_, Option.mem_toList.mpr hp, ?_⟩⟩
    exact mem_map.mpr ⟨(range.start, range.stop), mem_filter.mpr ⟨hbetween,
      (covers_iff hnodup).mpr hcovers⟩, rfl⟩

end run
theorem wake_wake (force : Bool) (r : Recorder) : (r.wake force).wake force = r.wake force := by
  cases force <;> rfl

theorem record_item {p : Point} {item : Item} (hp : p.item? = some item) (r : Recorder)
    (hfresh : ∀ l, p.label? = some l → r.placed.contains l = false) :
    item.record r = .ok () (r.point p) := by
  cases p with
  | label l status =>
    cases hp
    show Record.place l r = _
    unfold Record.place
    rw [hfresh l rfl]
    rfl
  | reads v => cases hp
  | yields v => cases hp
  | _ =>
    cases hp
    rfl

theorem contains_point (r : Recorder) (p : Point) (l : Label) :
    (r.point p).placed.contains l = (r.placed.contains l || p.label? == some l) := by
  rw [placed_point]
  cases p.label? with
  | none => simp
  | some l' => simp [Bool.or_comm]

theorem forM_record (force : Bool) {f : Item → Record Unit}
    (hf : ∀ item r, f item r = item.record (r.wake force)) {ps : List Point}
    (hnodup : (Point.placed ps).Nodup) {r r' : Recorder} (hsame : r'.wake force = r.wake force)
    (hfresh : ∀ l ∈ Point.placed ps, r.placed.contains l = false) :
    ∃ r'', (ps.filterMap Point.item?).forM f r' = .ok () r'' ∧
      r''.wake force = (r.run force ps).wake force := by
  induction ps generalizing r r' with
  | nil => exact ⟨r', rfl, hsame⟩
  | cons p ps ih =>
    have hrest : (Point.placed ps).Nodup := hnodup.sublist
      ((sublist_cons_self p ps).filterMap _)
    have hnew : ∀ l, p.label? = some l → r.placed.contains l = false ∧ l ∉ Point.placed ps := by
      intro l hl
      have hcons : Point.placed (p :: ps) = l :: Point.placed ps := by
        rw [Point.placed, filterMap_cons, hl]
        rfl
      rw [hcons] at hnodup hfresh
      exact ⟨hfresh l (.head ..), (nodup_cons.mp hnodup).1⟩
    have hfresh' : ∀ l ∈ Point.placed ps, ((r.wake force).point p).placed.contains l = false := by
      intro l hl
      rw [contains_point]
      have hold : r.placed.contains l = false := hfresh l (by
        rw [Point.placed, filterMap_cons]
        split
        · exact hl
        · exact .tail _ hl)
      show (r.placed.contains l || _) = false
      rw [hold, Bool.false_or, beq_eq_false_iff_ne]
      exact fun hlabel => (hnew l hlabel).2 hl
    cases hitem : p.item? with
    | none =>
      rw [filterMap_cons, hitem]
      refine ih hrest (r := (r.wake force).point p) ?_ hfresh'
      have hpoint : ∀ r : Recorder, r.point p = r := by
        intro r
        cases p with
        | reads v => rfl
        | yields v => rfl
        | _ => cases hitem
      rw [hpoint, wake_wake, hsame]
    | some item =>
      rw [filterMap_cons, hitem]
      have hstep : f item r' = .ok () ((r.wake force).point p) := by
        rw [hf, hsame]
        exact record_item hitem _ fun l hl => (hnew l hl).1
      obtain ⟨r'', hrun, hwake⟩ := ih hrest (r := (r.wake force).point p) rfl hfresh'
      refine ⟨r'', ?_, hwake⟩
      show EStateM.bind (f item) (fun _ => (ps.filterMap Point.item?).forM f) r' = _
      rw [EStateM.bind, hstep]
      exact hrun

end Recorder

namespace Layout

/-- Records everything that was laid out, whether or not it can be reached. -/
def recordAll (layout : Layout) : Record Unit :=
  layout.items.forM fun item => do
    modify fun r => { r with reachable := true }
    item.record

variable {layout : Layout} {ps : List Point} (hitems : layout.items.toList = ps.filterMap item?)
  (hnodup : (placed ps).Nodup) (free params : Nat)

include hitems in
theorem forM_items (f : Item → Record Unit) :
    layout.items.forM f = (ps.filterMap item?).forM f := by
  have harray : layout.items = (ps.filterMap item?).toArray := by rw [← hitems]
  rw [harray, Array.forM_eq_forM, forM_toArray]

include hitems hnodup

theorem record_eq : layout.record (.start free params) =
    .ok () ((Recorder.start free params).run false ps) := by
  obtain ⟨r, hrun, hwake⟩ := Recorder.forM_record false (f := Item.record)
    (fun _ _ => rfl) hnodup (r := .start free params) rfl
    fun l _ => Std.HashMap.contains_empty
  rw [record, forM_items hitems, hrun]
  exact congrArg _ hwake

theorem recordAll_eq : ∃ r, layout.recordAll (.start free params) = .ok () r ∧
    r.wake true = ((Recorder.start free params).run true ps).wake true := by
  obtain ⟨r, hrun, hwake⟩ := Recorder.forM_record true
    (f := fun item => do
      modify fun r => { r with reachable := true }
      item.record)
    (fun _ _ => rfl) hnodup (r := .start free params) rfl
    fun l _ => Std.HashMap.contains_empty
  rw [recordAll, forM_items hitems]
  exact ⟨r, hrun, hwake⟩

end Layout
end ClassAssembler
