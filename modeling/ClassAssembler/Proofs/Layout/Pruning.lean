import ClassAssembler.Proofs.Layout.Sealing

/-!
# Dropping dead code

Recording a body keeps the instructions that some path through the full code leads to, and drops
the rest.
-/

namespace ClassAssembler

open List Body Point Recorder

def Item.code? : Item → Option Entry
  | entry e => some e
  | protect _ _ _ _ _ => none

namespace Recorder

def instructions (r : Recorder) : List Entry := r.entries.toList.filter (!·.isLabel)

def Reaches (r : Recorder) (i : Nat) : Prop := Reach some r.entries.toList r.ranges.toList i

open Classical in
/-- The instructions that control can reach. -/
noncomputable def reached (r : Recorder) : List Entry :=
  (r.entries.toList.zipIdx.filter fun x => !x.1.isLabel && decide (r.Reaches x.2)).map Prod.fst

open Point

variable {free params : Nat} {ps : List Point}

theorem entries_full (i : Nat) :
    (upTo true free params ps i).entries.toList = (ps.take i).filterMap code? := by
  rw [filterMap_take]
  exact upTo_eq_flatMap (·.entries.toList) rfl (fun k hp => by rw [hp]; rfl)
    fun k p hp => by simp [entries_point, hp, wake]

open Classical in
/-- Of every instruction it is decided rightly whether it can be reached. -/
theorem instructions_upTo (h : Regular ps) {i : Nat} (hi : i ≤ ps.length) :
    (upTo false free params ps i).instructions =
      (((ps.take i).filterMap code?).zipIdx.filter fun x => !x.1.isLabel &&
        decide (Reach some (ps.filterMap code?) (fullRanges free params ps) x.2)).map
          Prod.fst := by
  induction i with
  | zero => simp [instructions, upTo, run, start]
  | succ i ih =>
    have hp : ps[i]? = some ps[i] := getElem?_eq_getElem hi
    generalize ps[i] = p at hp
    have hentries : (upTo false free params ps (i + 1)).instructions =
        (upTo false free params ps i).instructions ++ p.code?.toList.filter fun e =>
          !e.isLabel && (upTo false free params ps i).reachable := by
      rw [instructions, upTo_succ hp, entries_point, filter_append, filter_filter]
      refine congrArg _ (filter_congr fun e _ => ?_)
      cases e.isLabel <;> simp [wake]
    rw [hentries, ih (Nat.le_of_lt hi), take_add_one, hp, filterMap_append,
      zipIdx_append, filter_append, List.map_append]
    refine congrArg _ ?_
    cases he : p.code? with
    | none => simp [he]
    | some e =>
      have hstands : Stands code? ps i e := ⟨p, hp, he⟩
      cases hlabel : e.isLabel with
      | true => simp [he, hlabel]
      | false =>
        have hnot : ∀ l, ¬ Stands code? ps i (.label l) := fun l hl => by
          cases hstands.unique hl
          cases hlabel
        have hlive : (upTo false free params ps i).reachable = true ↔
            Reach some (ps.filterMap code?) (fullRanges free params ps)
              (rank code? ps i) :=
          (live_iff_reach h (Nat.le_of_lt hi) hnot).trans
            (reach_rank_iff (.inr ⟨e, hstands⟩) (Nat.le_of_lt hi)).symm
        have hrank : ((ps.take i).filterMap code?).length = rank code? ps i := rfl
        cases hr : (upTo false free params ps i).reachable with
        | true => simp [he, hlabel, hrank, hlive.mp hr]
        | false =>
          have hno := mt hlive.mpr (by rw [hr]; exact Bool.false_ne_true)
          simp [he, hlabel, hrank, hno]

theorem reachable_end (h : Regular ps) : (upTo false free params ps ps.length).reachable = true ↔
    Reach some (ps.filterMap code?) (fullRanges free params ps)
      (ps.filterMap code?).length := by
  rw [← rank_length, reach_rank_iff (.inl rfl) .refl]
  exact live_iff_reach h .refl fun l hl => Nat.lt_irrefl _ hl.lt_length

end Recorder

namespace Body

variable {b b' : Body} {layout : Layout}

theorem recordAll_layOut (hb : b.Sound) (hlay : b.layOut b.allocate.homes = .ok layout) :
    ∃ full, layout.recordAll (.start layout.nextLabel b.firstFree) = .ok () full ∧
      full.entries.toList = (b.points b.allocate.homes).filterMap code? ∧
      full.ranges.toList =
        fullRanges layout.nextLabel b.firstFree (b.points b.allocate.homes) := by
  obtain ⟨full, hfull, hsame⟩ := Layout.recordAll_eq (record_layOut hb hlay).2
    (placed_nodup hb _) layout.nextLabel b.firstFree
  refine ⟨full, hfull, ?_, ?_⟩
  · show (full.wake true).entries.toList = _
    rw [hsame, ← upTo_length]
    exact (entries_full _).trans (by rw [take_length])
  · show (full.wake true).ranges.toList = _
    rw [hsame, ← upTo_length]
    rfl

theorem filterMap_code? (ps : List Point) :
    (ps.filterMap item?).filterMap Item.code? = ps.filterMap code? := by
  have hentry : (fun p : Point => p.item?.bind Item.code?) = code? :=
    funext fun p => by cases p <;> rfl
  rw [filterMap_filterMap, hentry]

/-- An end is missing if and only if it can be reached and nothing may be put there. -/
theorem toCode_missingTerminal_iff {r : Recorder} (hinit : b.completeInit = .ok b')
    (hlay : b'.layOut b'.allocate.homes = .ok layout)
    (hrecord : layout.record (.start layout.nextLabel b'.firstFree) = .ok () r) :
    b.toCode = .error (.missingTerminal b.method) ↔ r.reachable = true ∧
      (b.method.type.returns ≠ none ∨ b.settings.voidReturn = false) := by
  obtain ⟨hmethod, hsettings⟩ := completeInit_eq hinit
  rw [← hmethod, ← hsettings]
  rcases completeEnd_cases b' r with ⟨hreach, hkind, hend⟩ | ⟨hkind, r', hend, _⟩
  · exact ⟨fun _ => ⟨hreach, hkind⟩, fun _ => toCode_of_end hinit hlay hrecord hend⟩
  · obtain ⟨herror, hok⟩ := toCode_of_finish hinit hlay hrecord hend
    constructor
    · intro h
      cases hfinish : r'.finish with
      | error fault =>
        rw [herror fault hfinish] at h
        cases h
      | ok code =>
        obtain ⟨notice, hnotice⟩ := hok code hfinish
        rw [hnotice] at h
        cases h
    · rintro ⟨hreach, hreturns⟩
      rcases hkind with hdead | ⟨hvoid, hsetting⟩
      · rw [hreach] at hdead
        cases hdead
      · rcases hreturns with h | h
        · exact absurd hvoid h
        · rw [hsetting] at h
          cases h

end Body

/-- A body that calls the constructors it has to, and needs no slot beyond the last, is laid
out. Recording keeps the instructions that can be reached in the full code, in order, and
knows whether its end can be reached. An end is missing just in case it can be reached in a
method that returns something, or if no return may be put there. -/
theorem pruning_exact {b b' : Body} (hb : b.Built) (hinit : b.completeInit = .ok b')
    (hslots : ∀ n, b'.layOut b'.allocate.homes ≠ .error (.code (.localsOverflow n))) :
    ∃ layout kept full, b'.layOut b'.allocate.homes = .ok layout ∧
      layout.record (.start layout.nextLabel b'.firstFree) = .ok () kept ∧
      layout.recordAll (.start layout.nextLabel b'.firstFree) = .ok () full ∧
      full.entries.toList = layout.items.toList.filterMap Item.code? ∧
      kept.instructions = full.reached ∧
      (kept.reachable = true ↔ full.Reaches full.entries.size) ∧
      (b.toCode = .error (.missingTerminal b.method) ↔ full.Reaches full.entries.size ∧
        (b.method.type.returns ≠ none ∨ b.settings.voidReturn = false)) := by
  have hsound := (hb.finished.completeInit hinit).sound
  have hregular := regular hsound b'.allocate.homes
  rcases layOut_ok_or_overflow hsound with ⟨layout, hlay, _⟩ | ⟨n, hover⟩
  · obtain ⟨hrecord, hitems⟩ := record_layOut hsound hlay
    obtain ⟨full, hfull, hentries, hranges⟩ := recordAll_layOut hsound hlay
    have hend : (upTo false layout.nextLabel b'.firstFree (b'.points b'.allocate.homes)
        (b'.points b'.allocate.homes).length).reachable = true ↔
          full.Reaches full.entries.size := by
      rw [Recorder.Reaches, ← Array.length_toList, hentries, hranges]
      exact reachable_end hregular
    refine ⟨layout, _, full, hlay, hrecord, hfull, ?_, ?_, hend, ?_⟩
    · rw [hentries, hitems, filterMap_code?]
    · rw [instructions_upTo hregular .refl, take_length, ← hentries,
        ← hranges]
      rfl
    · rw [toCode_missingTerminal_iff hinit hlay hrecord, hend]
  · exact absurd hover (hslots n)

/-- Behind an early return code is dropped; the end of the method can be reached. -/
theorem pruning_exact_earlyReturn :
    earlyReturn.Built ∧ ∃ layout kept full,
      earlyReturn.layOut earlyReturn.allocate.homes = .ok layout ∧
      layout.record (.start layout.nextLabel earlyReturn.firstFree) = .ok () kept ∧
      layout.recordAll (.start layout.nextLabel earlyReturn.firstFree) = .ok () full ∧
      kept.instructions = full.reached := by
  have hlaid : (earlyReturn.layOut earlyReturn.allocate.homes).toOption.isSome := by
    decide +kernel
  obtain ⟨layout, kept, full, hlay, hkept, hfull, _, hsame, _⟩ := pruning_exact
    built_earlyReturn (completeInit_of_called (by decide +kernel)) fun n hover => by
      rw [hover] at hlaid
      cases hlaid
  exact ⟨built_earlyReturn, layout, kept, full, hlay, hkept, hfull, hsame⟩

end ClassAssembler
