import ClassAssembler.Proofs.Layout.Positions
import ClassAssembler.Proofs.Layout.Routing

/-!
# The exception table of a body

A protection becomes a range for each part between its holes in which something is recorded.
-/

namespace ClassAssembler

open List Body

/-- Whether a range covers an entry: it begins before it and ends behind it. -/
def Code.covers (code : Code) (x : Nat) (range : ExceptionRange) : Bool :=
  ((code.entries.take x).filterMap Entry.label?).contains range.start &&
    ((code.entries.drop (x + 1)).filterMap Entry.label?).contains range.stop

/-- The handlers that exceptions thrown by an entry go to, in the order they are tried. -/
def Code.handlersAt (code : Code) (x : Nat) : List Handler :=
  (code.ranges.filter (code.covers x)).map fun range => (range.handler, range.caught)

section positions

variable {ps : List Point} {pos : Label → Nat} {p : Point} {l : Label}

theorem exists_located (h : (Point.placed ps).Nodup) : ∃ pos, Located pos 0 ps := by
  refine ⟨fun l => ps.findIdx fun p => p.label? = some l, fun j l status hj => ?_⟩
  rw [Nat.zero_add]
  have hlt : ps.findIdx (fun p => p.label? = some l) < ps.length :=
    findIdx_lt_length_of_exists ⟨_, mem_of_getElem? hj, by simp [Point.label?]⟩
  have hfound := findIdx_getElem (w := hlt)
  exact Point.label_unique h (getElem?_eq_getElem hlt) (of_decide_eq_true hfound) hj rfl

theorem Located.stands (h : Located pos 0 ps) {j : Nat} (hj : Stands Point.code? ps j (.label l)) :
    pos l = j := by
  obtain ⟨q, hq, hl⟩ := hj
  cases q with
  | label l' status =>
    cases hl
    rw [h j l status hq, Nat.zero_add]
  | _ => cases hl

end positions

section between

variable {pos : Label → Nat} {i : Nat}

theorem filter_between {α : Type} (x : α) {start stop : Label} {holes : List (Label × Label)}
    (hsorted : (pos start :: (ends pos holes ++ [pos stop])).Pairwise (· < ·))
    (hi : i ∉ ends pos holes) :
    ((Recorder.between start stop holes).filter
        fun part => pos part.1 < i ∧ i < pos part.2).map (fun _ => x) =
      if pos start < i ∧ i < pos stop ∧ ∀ hole ∈ holes, ¬ (pos hole.1 < i ∧ i < pos hole.2) then [x]
      else [] := by
  induction holes generalizing start with
  | nil =>
    rw [Recorder.between, filter_cons]
    by_cases h : pos start < i ∧ i < pos stop
    · simp [h]
    · rw [if_neg (by simpa using h), if_neg fun hc => h ⟨hc.1, hc.2.1⟩]
      rfl
  | cons hole holes ih =>
    have hcons : ends pos (hole :: holes) = pos hole.1 :: pos hole.2 :: ends pos holes := rfl
    rw [hcons] at hsorted hi
    obtain ⟨hstart, hrest⟩ := pairwise_cons.mp hsorted
    obtain ⟨hfirst, hrest⟩ := pairwise_cons.mp hrest
    have hfirst' : pos start < pos hole.1 := hstart _ (.head ..)
    have hsecond : pos hole.1 < pos hole.2 := hfirst _ (.head ..)
    have hlast : pos hole.2 < pos stop := rel_of_pairwise_cons hrest (by simp)
    have hne1 : i ≠ pos hole.1 := fun h => hi (h ▸ .head ..)
    have hne2 : i ≠ pos hole.2 := fun h => hi (h ▸ .tail _ (.head ..))
    have ih := ih hrest fun h => hi (.tail _ (.tail _ h))
    -- The other holes lie behind this one.
    have hbehind : i < pos hole.2 → ∀ hole' ∈ holes, ¬ (pos hole'.1 < i ∧ i < pos hole'.2) := by
      intro hlt hole' hmem hopen
      have := rel_of_pairwise_cons hrest (mem_append_left _
        (mem_ends.mpr ⟨hole', hmem, .inl rfl⟩))
      omega
    rw [Recorder.between, filter_cons]
    rcases Nat.lt_or_gt_of_ne hne1 with hlt | hgt
    · rw [if_neg fun hc => by omega, map_eq_nil_iff] at ih
      rw [ih]
      by_cases h : pos start < i
      · have hopen : ∀ hole' ∈ hole :: holes, ¬ (pos hole'.1 < i ∧ i < pos hole'.2) := by
          intro hole' hmem
          rcases mem_cons.mp hmem with rfl | hmem
          · omega
          · exact hbehind (by omega) hole' hmem
        rw [if_pos (by simpa using ⟨h, hlt⟩), if_pos ⟨h, by omega, hopen⟩, map_singleton]
      · rw [if_neg (by simp [h]), if_neg fun hc => h hc.1]
        rfl
    · rw [if_neg (by simp; omega), ih]
      refine ite_congr (propext ⟨fun hc => ⟨by omega, hc.2.1, fun hole' hmem => ?_⟩, fun hc =>
        ⟨?_, hc.2.1, fun hole' hmem => hc.2.2 hole' (.tail _ hmem)⟩⟩)
        (fun _ => rfl) fun _ => rfl
      · rcases mem_cons.mp hmem with rfl | hmem
        · omega
        · exact hc.2.2 hole' hmem
      · have := hc.2.2 hole (.head ..)
        omega

end between

namespace Recorder

open Point

variable {ps : List Point} {pos : Label → Nat} {free params i : Nat}

section

variable (h : Regular ps) (hloc : Located pos 0 ps)
include h hloc

theorem bound_ne {k : Nat} {p q : Point} {l : Label}
    (hp : ps[k]? = some p) (hl : l ∈ p.bounds) (hq : ps[i]? = some q) (hinsn : q.isInsn) :
    i ≠ pos l := by
  rintro rfl
  obtain ⟨j, _, hj⟩ := h.anchored.at hp hl
  rw [← hloc.stands hj] at hj
  obtain ⟨e, he, hlabel⟩ := isInsn_iff.mp hinsn
  cases hj.unique ⟨q, hq, he⟩
  exact hlabel rfl

theorem covers_part {k : Nat} {start stop handler : Label}
    {holes : List (Label × Label)} {caught : Option ClassName} {part : Label × Label}
    (hp : ps[k]? = some (.protect start stop holes handler caught))
    (hpart : part ∈ between start stop holes) (hi : Recorded false free params ps i)
    (hopen : pos part.1 < i ∧ i < pos part.2) :
    ((upTo false free params ps k).wake false).covers part := by
  obtain ⟨hstart, hstop⟩ := mem_bounds_of_between hpart
  obtain ⟨x, hx, hsx⟩ := h.anchored.at hp hstart
  obtain ⟨y, hy, hsy⟩ := h.anchored.at hp hstop
  refine (covers_iff h.nodup).mpr ⟨x, y, hx, hy, hsx, hsy, i, ?_, ?_, hi⟩
  · rw [← hloc.stands hsx]
    exact hopen.1
  · rw [← hloc.stands hsy]
    exact hopen.2

theorem ranges_around
    (hsorted : ∀ start stop holes handler caught, .protect start stop holes handler caught ∈ ps →
      (pos start :: (ends pos holes ++ [pos stop])).Pairwise (· < ·))
    (hi : Recorded false free params ps i) {m : Nat} (hm : m ≤ ps.length) :
    ((upTo false free params ps m).ranges.toList.filter
        fun range => pos range.start < i ∧ i < pos range.stop).map
          (fun range => (range.handler, range.caught)) = (ps.take m).filterMap (catches pos i) := by
  induction m with
  | zero => simp [upTo, run, start]
  | succ m ih =>
    have hp : ps[m]? = some ps[m] := getElem?_eq_getElem hm
    rw [upTo_succ hp, ranges_point, filter_append, List.map_append,
      show ((upTo false free params ps m).wake false).ranges = (upTo false free params ps m).ranges
        from rfl, ih (Nat.le_of_lt hm), take_add_one, hp, filterMap_append]
    congr 1
    cases hq : ps[m] with
    | protect start stop holes handler caught =>
      rw [hq] at hp
      have hmem := mem_of_getElem? hp
      have hends : i ∉ ends pos holes := by
        intro hmem
        obtain ⟨hole, hhole, heq⟩ := mem_ends.mp hmem
        obtain ⟨q, hqi, hinsn, _⟩ := hi
        have hbound : ∀ l, l ∈ [hole.1, hole.2] →
            l ∈ (Point.protect start stop holes handler caught).bounds := fun l hl =>
          .tail _ (.tail _ (mem_flatMap.mpr ⟨hole, hhole, hl⟩))
        rcases heq with heq | heq
        · exact bound_ne h hloc hp (hbound hole.1 (by simp)) hqi hinsn heq
        · exact bound_ne h hloc hp (hbound hole.2 (by simp)) hqi hinsn heq
      have hcovers : ∀ part ∈ between start stop holes,
          (decide (pos part.1 < i ∧ i < pos part.2) &&
            ((upTo false free params ps m).wake false).covers part) =
              decide (pos part.1 < i ∧ i < pos part.2) := by
        intro part hpart
        by_cases hopen : pos part.1 < i ∧ i < pos part.2
        · rw [covers_part h hloc hp hpart hi hopen, Bool.and_true]
        · rw [decide_eq_false hopen, Bool.false_and]
      have hpieces := filter_between (handler, caught) (hsorted _ _ _ _ _ hmem) hends
      rw [newRanges, filter_map, map_map, filter_filter]
      refine ((congrArg (List.map _) (filter_congr hcovers)).trans hpieces).trans ?_
      rw [Option.toList_some, filterMap_cons, catches]
      split <;> rfl
    | _ => rfl

end

end Recorder

section table

variable {es : List Entry} {x : Nat} {l : Label}

theorem stands_some_iff {e : Entry} : Stands some es x e ↔ es[x]? = some e :=
  ⟨fun ⟨_, hx, he⟩ => by cases he; exact hx, fun hx => ⟨e, hx, rfl⟩⟩

theorem mem_labels_iff : l ∈ es.filterMap Entry.label? ↔ ∃ a : Nat, es[a]? = some (.label l) := by
  rw [mem_filterMap]
  constructor
  · rintro ⟨e, he, hl⟩
    cases e with
    | label l' =>
      cases hl
      exact mem_iff_getElem?.mp he
    | _ => cases hl
  · rintro ⟨a, ha⟩
    exact ⟨_, mem_of_getElem? ha, rfl⟩

theorem Code.covers_iff {code : Code} {range : ExceptionRange} :
    code.covers x range ↔ Covers some code.entries range x := by
  rw [Code.covers, Bool.and_eq_true, contains_iff_mem, contains_iff_mem, mem_labels_iff,
    mem_labels_iff]
  constructor
  · rintro ⟨⟨a, ha⟩, c, hc⟩
    rw [getElem?_take] at ha
    rw [getElem?_drop] at hc
    split at ha
    · exact ⟨a, _, stands_some_iff.mpr ha, stands_some_iff.mpr hc, ‹_›, by omega⟩
    · cases ha
  · rintro ⟨a, c, ha, hc, hax, hxc⟩
    refine ⟨⟨a, ?_⟩, c - (x + 1), ?_⟩
    · rw [getElem?_take, if_pos hax, stands_some_iff.mp ha]
    · rw [getElem?_drop, Nat.add_sub_cancel' hxc, stands_some_iff.mp hc]

end table

namespace Recorder

open Point

variable {code : Code} {ps : List Point} {pos : Label → Nat} {free params i : Nat} {e : Entry}
  (h : Regular ps) (hloc : Located pos 0 ps)
  (hentries : code.entries = (List.range (ps.length + 1)).filterMap (kept? free params ps))
  (hi : Stands (kept? free params ps) (List.range (ps.length + 1)) i e)

include h hloc hentries hi

theorem covers_kept {range : ExceptionRange}
    (hrange : range ∈ (upTo false free params ps ps.length).ranges.toList) :
    code.covers (rank (kept? free params ps) (List.range (ps.length + 1)) i) range =
      decide (pos range.start < i ∧ i < pos range.stop) := by
  obtain ⟨k, _, start, stop, holes, hp, hpart, x, y, _, _, hx, hy, _⟩ :=
    (mem_ranges_iff h.nodup).mp hrange
  rw [Bool.eq_iff_iff, decide_eq_true_iff, Code.covers_iff, hentries, covers_rank_iff hi,
    hloc.stands hx, hloc.stands hy]
  constructor
  · rintro ⟨a, c, ha, hc, hai, hic⟩
    rw [← hloc.stands hx, ← hloc.stands hy, hloc.stands (stands_kept_label ha),
      hloc.stands (stands_kept_label hc)]
    exact ⟨hai, hic⟩
  · rintro ⟨hxi, hiy⟩
    exact ⟨x, y, kept_label hx, kept_label hy, hxi, hiy⟩

/-- The handlers at an instruction of the code are those of the protections that catch there. -/
theorem handlersAt_kept
    (hsorted : ∀ start stop holes handler caught, .protect start stop holes handler caught ∈ ps →
      (pos start :: (ends pos holes ++ [pos stop])).Pairwise (· < ·))
    (hranges : code.ranges = (upTo false free params ps ps.length).ranges.toList)
    (hlabel : ¬ e.isLabel) :
    code.handlersAt (rank (kept? free params ps) (List.range (ps.length + 1)) i) =
      if i = ps.length then [] else ps.filterMap (catches pos i) := by
  rw [Code.handlersAt, hranges,
    filter_congr fun range hrange => covers_kept h hloc hentries hi hrange]
  rcases stands_kept hi with ⟨p, hp, hcode, hlive⟩ | ⟨rfl, _, _⟩
  · have hlt := (List.getElem?_eq_some_iff.mp hp).1
    have hrecorded : Recorded false free params ps i :=
      ⟨p, hp, isInsn_iff.mpr ⟨e, hcode, hlabel⟩, hlive.resolve_left hlabel⟩
    rw [if_neg (Nat.ne_of_lt hlt), ranges_around h hloc hsorted hrecorded .refl,
      take_length]
  · rw [if_pos rfl, map_eq_nil_iff, filter_eq_nil_iff]
    intro range hrange
    obtain ⟨_, _, _, _, _, _, _, _, y, _, _, _, hy, _⟩ := (mem_ranges_iff h.nodup).mp hrange
    have hlt := hy.lt_length
    rw [← hloc.stands hy] at hlt
    rw [decide_eq_true_iff]
    omega

end Recorder

/-- Some code dispatches exceptions as a body is nested: each instruction works at the site of
its point, a return that is added at the end apart, and the ranges of the exception table that
cover it lead, in the order of the table, to exactly the lexical handlers of the site. -/
def Code.HandledAsIn (code : Code) (b : Body) (ps : List Point) (at? : Nat → Option Entry) : Prop :=
  ∀ x e, code.entries[x]? = some e → ¬ e.isLabel →
    (∃ i p site, at? i = some e ∧ rank at? (List.range (ps.length + 1)) i = x ∧
      ps[i]? = some p ∧ p.site? = some site ∧ code.handlersAt x = b.lexicalHandlers site) ∨
    (x + 1 = code.entries.length ∧ e = .branch (.ret none) ∧ code.handlersAt x = [])

/-- Exceptions are dispatched lexically. The code of a body that was built is recorded from
the points of the body, with all that can be reached, and handled as the body is nested. -/
theorem exceptions_lexical {b : Body} (hb : b.Built) {code : Code} {notice : Notice}
    (hcode : b.toCode = .ok (code, notice)) :
    ∃ b' at?, b.completeInit = .ok b' ∧ code.RecordedFrom (b'.points b'.allocate.homes) at? ∧
      code.HandledAsIn b' (b'.points b'.allocate.homes) at? := by
  obtain ⟨b', hinit⟩ := exists_completeInit hcode
  have hfinished := hb.finished.completeInit hinit
  obtain ⟨layout, _, hentries, hranges⟩ := toCode_kept hfinished.sound hinit hcode
  have hregular := regular hfinished.sound b'.allocate.homes
  refine ⟨b', _, hinit, Code.recordedFrom hregular hentries hranges, fun x e hx hlabel => ?_⟩
  obtain ⟨pos, hloc⟩ := exists_located hregular.nodup
  have hrouted := routed hfinished b'.allocate.homes hloc
  rw [hentries] at hx
  obtain ⟨i, hi, rfl⟩ := exists_stands (stands_some_iff.mpr hx)
  have hhandlers := Recorder.handlersAt_kept hregular hloc hentries hi hrouted.aligned
    hranges hlabel
  rcases Recorder.stands_kept hi with ⟨p, hp, he, hlive⟩ | ⟨rfl, _, rfl⟩
  · have hlt := (List.getElem?_eq_some_iff.mp hp).1
    obtain ⟨site, hsite⟩ := hrouted.sited p (mem_of_getElem? hp)
      (Point.isInsn_iff.mpr ⟨e, he, hlabel⟩)
    have hout := hrouted.out i p site hp hsite
    rw [Nat.zero_add] at hout
    rw [if_neg (Nat.ne_of_lt hlt)] at hhandlers
    refine .inl ⟨i, p, site, ?_, rfl, hp, hsite, ?_⟩
    · obtain ⟨j, hj, hkept⟩ := hi
      obtain ⟨hjlt, rfl⟩ := List.getElem?_eq_some_iff.mp hj
      rw [getElem_range] at hkept
      exact hkept
    · rw [lexicalHandlers_eq hfinished.sound, ← hout]
      exact hhandlers
  · rw [if_pos rfl] at hhandlers
    refine .inr ⟨?_, rfl, hhandlers⟩
    rw [hentries, ← hi.rank_succ, ← rank_length, length_range]

/-- In the body of a try statement the handler that runs the finally block is in force, at the
jump out of it no longer. -/
theorem exceptions_lexical_earlyReturn :
    earlyReturn.Built ∧
      (earlyReturn.lexicalHandlers ⟨2, none⟩).map Prod.snd = [none] ∧
      earlyReturn.lexicalHandlers ⟨2, some (some 0)⟩ = [] ∧
      ∃ code notice, earlyReturn.toCode = .ok (code, notice) ∧
        ∃ b' at?, earlyReturn.completeInit = .ok b' ∧
          code.RecordedFrom (b'.points b'.allocate.homes) at? ∧
          code.HandledAsIn b' (b'.points b'.allocate.homes) at? := by
  obtain ⟨code, notice, hcode⟩ := exists_code_earlyReturn
  exact ⟨built_earlyReturn, by decide +kernel, by decide +kernel, code, notice, hcode,
    exceptions_lexical built_earlyReturn hcode⟩

end ClassAssembler
