import ClassAssembler.Proofs.Code.Calls
import ClassAssembler.Proofs.Code.Walks
import ClassAssembler.Proofs.Layout.Flow
import ClassAssembler.Proofs.Layout.Sealing

/-!
# Positions of a body

The points of a body are the places to speak about its code: what is recorded of each of them,
which ones control can be at, and what is known there.
-/

namespace ClassAssembler

variable {l : Label} {ps : List Point} {r : Recorder}

open List Recorder

section rank

variable {α β : Type} {code? : α → Option Entry} {ps : List α}

theorem exists_of_rank {f : Nat → β}
    (h : ∀ i p, ps[i]? = some p → code? p = none → f (i + 1) = f i) :
    ∃ g : Nat → β, ∀ i ≤ ps.length, g (rank code? ps i) = f i := by
  have hsame : ∀ {i j}, i ≤ j → j ≤ ps.length → rank code? ps i = rank code? ps j → f i = f j :=
    fun hij hj hrank => along_rank (P := (f _ = f ·)) hij hj hrank
      (fun k p hp he heq => heq.trans (h k p hp he).symm) rfl
  refine ⟨fun x => if hx : ∃ i, i ≤ ps.length ∧ rank code? ps i = x then f hx.choose else f 0,
    fun i hi => ?_⟩
  have hx : ∃ j, j ≤ ps.length ∧ rank code? ps j = rank code? ps i := ⟨i, hi, rfl⟩
  dsimp only
  rw [dif_pos hx]
  obtain ⟨hle, hrank⟩ := hx.choose_spec
  rcases Nat.le_total hx.choose i with h' | h'
  · exact hsame h' hi hrank
  · exact (hsame h' hle hrank.symm).symm

end rank

namespace Recorder

open Point

/-- What is recorded of a position: a label, or an instruction that is live. Behind the end a
return is put if it is live. -/
def kept? (free params : Nat) (ps : List Point) (i : Nat) : Option Entry :=
  match ps[i]? with
  | some p => p.code?.filter fun e => e.isLabel || (upTo false free params ps i).reachable
  | none =>
      if i = ps.length ∧ (upTo false free params ps i).reachable then some (.branch (.ret none))
      else none

variable {free params : Nat} {ps : List Point} {i j k : Nat} {p : Point} {e : Entry}

theorem entries_kept (hi : i ≤ ps.length) : (upTo false free params ps i).entries.toList =
    (List.range i).filterMap (kept? free params ps) := by
  induction i with
  | zero => simp [upTo, run, start]
  | succ i ih =>
    have hp : ps[i]? = some ps[i] := getElem?_eq_getElem hi
    rw [upTo_succ hp, entries_point, wake_false, ih (Nat.le_of_lt hi), range_succ,
      filterMap_append]
    congr 1
    rw [filterMap_cons, kept?, hp]
    dsimp only
    cases ps[i].code? with
    | none => rfl
    | some e =>
      cases hkeep : e.isLabel || (upTo false free params ps i).reachable <;>
        simp [Option.filter, hkeep]

theorem stands_kept (h : Stands (kept? free params ps) (List.range (ps.length + 1)) i e) :
    (∃ p, ps[i]? = some p ∧ p.code? = some e ∧ (e.isLabel ∨ Live false free params ps i)) ∨
      i = ps.length ∧ Live false free params ps i ∧ e = .branch (.ret none) := by
  obtain ⟨k, hk, he⟩ := h
  obtain ⟨hlt, rfl⟩ := List.getElem?_eq_some_iff.mp hk
  rw [getElem_range] at he
  unfold kept? at he
  split at he
  · rename_i p hp
    obtain ⟨hcode, hkeep⟩ := Option.filter_eq_some_iff.mp he
    rw [Bool.or_eq_true] at hkeep
    exact .inl ⟨p, hp, hcode, hkeep⟩
  · split at he
    · rename_i hend
      cases he
      exact .inr ⟨hend.1, hend.2, rfl⟩
    · cases he

theorem kept_label (h : Stands code? ps i (.label l)) :
    Stands (kept? free params ps) (List.range (ps.length + 1)) i (.label l) := by
  obtain ⟨p, hp, hl⟩ := h
  have hlt := (List.getElem?_eq_some_iff.mp hp).1
  refine ⟨i, ?_, ?_⟩
  · rw [getElem?_eq_getElem (by rw [length_range]; omega), getElem_range]
  · rw [kept?, hp]
    dsimp only
    rw [hl]
    rfl

theorem stands_kept_label
    (h : Stands (kept? free params ps) (List.range (ps.length + 1)) i (.label l)) :
    Stands code? ps i (.label l) := by
  rcases stands_kept h with ⟨p, hp, hl, _⟩ | ⟨_, _, he⟩
  · exact ⟨p, hp, hl⟩
  · cases he

theorem point_of_kept (h : kept? free params ps i = some e) :
    (∃ p, ps[i]? = some p ∧ p.code? = some e) ∨ i = ps.length ∧ e = .branch (.ret none) := by
  unfold kept? at h
  split at h
  · rename_i p hp
    exact .inl ⟨p, hp, (Option.filter_eq_some_iff.mp h).1⟩
  · split at h
    · rename_i hend
      cases h
      exact .inr ⟨hend.1, rfl⟩
    · cases h

theorem kept_length (h : LiveAt free params ps ps.length) :
    kept? free params ps ps.length = some (.branch (.ret none)) := by
  have hnone := getElem?_eq_none (Nat.le_refl ps.length)
  rw [kept?, hnone]
  refine if_pos ⟨rfl, h.live fun l hl => ?_⟩
  obtain ⟨p, hp, _⟩ := hl
  rw [hnone] at hp
  cases hp

theorem kept_of_liveAt (hp : ps[i]? = some p) (he : p.code? = some e)
    (h : LiveAt free params ps i) : kept? free params ps i = some e := by
  rw [kept?, hp]
  dsimp only
  rw [he]
  refine Option.filter_eq_some_iff.mpr ⟨rfl, ?_⟩
  cases hlabel : e.isLabel with
  | true => rfl
  | false =>
    refine h.live fun l hl => ?_
    cases hl.unique ⟨p, hp, he⟩
    cases hlabel

theorem LiveAt.skip (h : LiveAt free params ps i) (hp : ps[i]? = some p) (he : p.code? = none) :
    Live false free params ps (i + 1) := by
  have hlive := h.live fun l ⟨q, hq, hl⟩ => by
    rw [hp] at hq
    cases hq
    rw [he] at hl
    cases hl
  cases p with
  | label l status => cases he
  | branch br site => cases he
  | _ => exact (live_succ hp).mpr hlive

theorem liveAt_target (h : Regular ps) {br : Branch} {site : Option Site} {t : Label}
    (hp : ps[i]? = some (.branch br site)) (hlive : Live false free params ps i)
    (ht : t ∈ br.targets) (hj : Stands code? ps j (.label t)) : LiveAt free params ps j := by
  have hi := Nat.le_of_lt (List.getElem?_eq_some_iff.mp hp).1
  exact liveAt_of_reach h (.step (reach_of_live h.nodup hi hlive) (.jump ⟨_, hp, rfl⟩ ht hj))

theorem liveAt_handler (h : Regular ps) {range : ExceptionRange}
    (hr : range ∈ (upTo false free params ps ps.length).ranges.toList)
    (hj : Stands code? ps j (.label range.handler)) : LiveAt free params ps j := by
  obtain ⟨k, _, start, stop, holes, hp, hpart, x, y, hxk, hyk, hx, hy, m, hxm, hmy, hm⟩ :=
    (mem_ranges_iff h.nodup).mp hr
  refine liveAt_of_named hj (handler_below h hp hj) hp ⟨rfl, _, hpart, ?_⟩
  exact (covers_iff h.nodup).mpr ⟨x, y, hxk, hyk, hx, hy, m, hxm, hmy, hm⟩

theorem exists_mark (hi : i < ps.length + 1) (hnone : kept? free params ps i = none)
    (hlive : LiveAt free params ps i) : ∃ p, ps[i]? = some p ∧ p.code? = none := by
  cases hp : ps[i]? with
  | none =>
    have hreach : (upTo false free params ps i).reachable = true :=
      hlive.live fun l ⟨q, hq, _⟩ => by rw [hp] at hq; cases hq
    have hend : i = ps.length :=
      Nat.le_antisymm (Nat.le_of_lt_succ hi) (List.getElem?_eq_none_iff.mp hp)
    rw [kept?, hp] at hnone
    simp [← hend, hreach] at hnone
  | some p =>
    cases he : p.code? with
    | none => exact ⟨p, rfl, he⟩
    | some e =>
      rw [kept_of_liveAt hp he hlive] at hnone
      cases hnone

/-- An edge of the code is one of the points. -/
theorem edge_points (hlive : LiveAt free params ps i)
    (h : Edge (kept? free params ps) (List.range (ps.length + 1)) [] i j) :
    Edge code? ps [] i j := by
  cases h with
  | skip hp he =>
    obtain ⟨hlt, rfl⟩ := List.getElem?_eq_some_iff.mp hp
    rw [length_range] at hlt
    rw [getElem_range] at he
    obtain ⟨p, hp, he⟩ := exists_mark hlt he hlive
    exact .skip hp he
  | next hi hfalls =>
    rcases stands_kept hi with ⟨p, hp, he, _⟩ | ⟨_, _, rfl⟩
    · exact .next ⟨p, hp, he⟩ hfalls
    · cases hfalls
  | jump hi ht hj =>
    rcases stands_kept hi with ⟨p, hp, he, _⟩ | ⟨_, _, rfl⟩
    · exact .jump ⟨p, hp, he⟩ ht (stands_kept_label hj)
    · cases ht
  | throw _ _ hr => cases hr

def Reached (free params : Nat) (ps : List Point) (i : Nat) : Prop :=
  Reach code? ps (fullRanges free params ps) i

theorem Reached.edge (h : Reached free params ps i) (hedge : Edge code? ps [] i j) :
    Reached free params ps j :=
  .step h hedge.with_ranges

theorem ranges_subset (h : Regular ps) {range : ExceptionRange}
    (hr : range ∈ (upTo false free params ps ps.length).ranges.toList) :
    range ∈ fullRanges free params ps := by
  obtain ⟨k, hk, start, stop, holes, hp, hpart, x, y, hxk, hyk, hx, hy, m, hxm, hmy, p, hpm,
    hinsn, _⟩ :=
    (mem_ranges_iff h.nodup).mp hr
  exact (mem_ranges_iff h.nodup).mpr ⟨k, hk, start, stop, holes, hp, hpart, x, y, hxk, hyk,
    hx, hy, m, hxm, hmy, p, hpm, hinsn, rfl⟩

/-- What can be reached in the code can be reached in the points. -/
theorem reached_of_reach (h : Regular ps)
    (hreach : Reach (kept? free params ps) (List.range (ps.length + 1))
      (upTo false free params ps ps.length).ranges.toList i) : Reached free params ps i := by
  induction hreach with
  | start => exact .start
  | @step i j _ hedge ih =>
    have hlive := liveAt_of_reach h ih
    cases hedge with
    | skip hp he => exact ih.edge (edge_points hlive (.skip hp he))
    | next hi hfalls => exact ih.edge (edge_points hlive (.next hi hfalls))
    | jump hi ht hj => exact ih.edge (edge_points hlive (.jump hi ht hj))
    | throw hi hlabel hr hcovers hj =>
      obtain ⟨x, y, hx, hy, hxi, hiy⟩ := hcovers
      rcases stands_kept hi with ⟨p, hp, he, _⟩ | ⟨rfl, _, _⟩
      · exact .step ih (.throw ⟨p, hp, he⟩ hlabel (ranges_subset h hr)
          ⟨x, y, stands_kept_label hx, stands_kept_label hy, hxi, hiy⟩ (stands_kept_label hj))
      · have hlt := (stands_kept_label hy).lt_length
        omega

end Recorder

namespace Body

variable {b b' : Body} {code : Code} {notice : Notice}

theorem completeEnd_ok {r' : Recorder} (h : b.completeEnd r = .ok r') :
    r'.reachable = false ∧ r'.unplaced = r.unplaced ∧ r'.ranges = r.ranges ∧
      r'.entries.toList =
        r.entries.toList ++ if r.reachable then [.branch (.ret none)] else [] := by
  unfold completeEnd at h
  cases hreach : r.reachable with
  | false =>
    rw [hreach] at h
    cases h
    simp [hreach]
  | true =>
    rw [hreach, if_pos rfl] at h
    split at h
    · cases h
      unfold branch
      rw [if_pos hreach]
      exact ⟨rfl, rfl, rfl, by simp⟩
    · cases h

theorem maxLocals_completeEnd {r' : Recorder} (h : b.completeEnd r = .ok r') :
    r'.maxLocals = r.maxLocals := by
  unfold completeEnd at h
  split at h
  · next hreach =>
    split at h
    · cases h
      rw [branch, if_pos hreach]
    · cases h
  · cases h
    rfl

theorem toCode_recorded (hb : b'.Sound) (hinit : b.completeInit = .ok b')
    (hcode : b.toCode = .ok (code, notice)) :
    ∃ layout r, b'.layOut b'.allocate.homes = .ok layout ∧
      b'.completeEnd (.upTo false layout.nextLabel b'.firstFree (b'.points b'.allocate.homes)
        (b'.points b'.allocate.homes).length) = .ok r ∧ r.finish = .ok code := by
  rcases layOut_ok_or_overflow hb with ⟨layout, hlay, _⟩ | ⟨n, hover⟩
  · have hrecord := (record_layOut hb hlay).1
    cases hend : b'.completeEnd (.upTo false layout.nextLabel b'.firstFree
        (b'.points b'.allocate.homes) (b'.points b'.allocate.homes).length) with
    | error fault =>
      rw [toCode_of_end hinit hlay hrecord hend] at hcode
      cases hcode
    | ok r =>
      obtain ⟨herror, hok⟩ := toCode_of_finish hinit hlay hrecord hend
      refine ⟨layout, r, hlay, hend, ?_⟩
      cases hfinish : r.finish with
      | error fault =>
        rw [herror fault hfinish] at hcode
        cases hcode
      | ok code' =>
        obtain ⟨notice', hnotice⟩ := hok code' hfinish
        rw [hcode] at hnotice
        cases hnotice
        rfl
  · rw [toCode_of_layOut hinit hover] at hcode
    cases hcode

theorem toCode_kept (hb : b'.Sound) (hinit : b.completeInit = .ok b')
    (hcode : b.toCode = .ok (code, notice)) :
    ∃ layout, b'.layOut b'.allocate.homes = .ok layout ∧
      code.entries = (List.range ((b'.points b'.allocate.homes).length + 1)).filterMap
        (kept? layout.nextLabel b'.firstFree (b'.points b'.allocate.homes)) ∧
      code.ranges = (upTo false layout.nextLabel b'.firstFree
        (b'.points b'.allocate.homes) (b'.points b'.allocate.homes).length).ranges.toList := by
  obtain ⟨layout, r, hlay, hend, hfinish⟩ := toCode_recorded hb hinit hcode
  obtain ⟨_, _, hranges, hentries⟩ := completeEnd_ok hend
  obtain ⟨_, _, _, rfl⟩ := finish_eq_ok_iff.mp hfinish
  refine ⟨layout, hlay, ?_, congrArg Array.toList hranges⟩
  rw [range_succ, filterMap_append, ← entries_kept .refl,
    filterMap_cons, kept?, getElem?_eq_none .refl]
  refine hentries.trans (congrArg _ ?_)
  cases (upTo false layout.nextLabel b'.firstFree (b'.points b'.allocate.homes)
    (b'.points b'.allocate.homes).length).reachable <;> simp

end Body

/-- Some code is what is recorded of points: of each position at most what the point there
stands for, and behind the end possibly a return. All that a walk comes to is recorded. -/
structure Code.RecordedFrom (code : Code) (ps : List Point) (at? : Nat → Option Entry) : Prop where
  entries : code.entries = (List.range (ps.length + 1)).filterMap at?
  point : ∀ {i e}, at? i = some e → (∃ p, ps[i]? = some p ∧ p.code? = some e) ∨
    i = ps.length ∧ e = .branch (.ret none)
  walked : ∀ {past i p e}, Walk at? (List.range (ps.length + 1)) code.ranges past i →
    ps[i]? = some p → p.code? = some e → at? i = some e
  ended : ∀ {past}, Walk at? (List.range (ps.length + 1)) code.ranges past ps.length →
    at? ps.length = some (.branch (.ret none))

theorem Code.recordedFrom {code : Code} {free params : Nat} (h : Point.Regular ps)
    (hentries : code.entries = (List.range (ps.length + 1)).filterMap
      (kept? free params ps))
    (hranges : code.ranges = (upTo false free params ps ps.length).ranges.toList) :
    code.RecordedFrom ps (kept? free params ps) := by
  have hlive {past i} (hwalk : Walk (kept? free params ps) (List.range (ps.length + 1))
      code.ranges past i) : Recorder.LiveAt free params ps i := by
    rw [hranges] at hwalk
    exact liveAt_of_reach h (reached_of_reach h hwalk.reach)
  exact {
    entries := hentries
    point := point_of_kept
    walked := fun hwalk hp he => kept_of_liveAt hp he (hlive hwalk)
    ended := fun hwalk => kept_length (hlive hwalk) }

def Point.slots : Point → Nat
  | insn i _ _ =>
      match i.localAccess? with
      | some (slot, words) => slot.toNat + words
      | none => 0
  | _ => 0

namespace Recorder

variable {force : Bool} {n : Nat} {ps : List Point}

theorem maxLocals_point_le {p : Point} (hr : r.maxLocals ≤ n) (hp : p.slots ≤ n) :
    (r.point p).maxLocals ≤ n := by
  cases p with
  | insn i role site =>
    show (r.insn i).maxLocals ≤ n
    unfold insn
    split
    · simp only [Point.slots] at hp
      dsimp only
      split
      · next heq =>
        rw [heq] at hp
        exact Nat.max_le.mpr ⟨hr, hp⟩
      · exact hr
    · exact hr
  | branch b site =>
    show (r.branch b).maxLocals ≤ n
    unfold branch
    split <;> exact hr
  | protect start stop holes handler caught =>
    rw [point, protect_eq, (addRanges_fields _ _ _ _).2.2.2.2]
    exact hr
  | _ => exact hr

theorem maxLocals_run_le (hr : r.maxLocals ≤ n) (hps : ∀ p ∈ ps, p.slots ≤ n) :
    (r.run force ps).maxLocals ≤ n := by
  induction ps generalizing r with
  | nil => exact hr
  | cons p ps ih =>
    refine ih (maxLocals_point_le ?_ (hps p (.head ..))) fun q hq =>
      hps q (.tail _ hq)
    exact hr

end Recorder

/-- What can be looked up to see that a body without a result has code. -/
structure Body.Checked (b : Body) : Prop where
  init : b.init.all (·.called)
  laid : (b.layOut b.allocate.homes).toOption.isSome
  void : b.method.type.returns = none ∧ b.settings.voidReturn
  slots : b.firstFree ≤ 65535 ∧ ∀ p ∈ b.points b.allocate.homes, p.slots ≤ 65535

theorem Body.exists_code {b : Body} (hb : b.Built) (h : b.Checked) :
    ∃ code notice, b.toCode = .ok (code, notice) := by
  have hinit := completeInit_of_called h.init
  have hsound := (hb.finished.completeInit hinit).sound
  cases hlaid : b.layOut b.allocate.homes with
  | error fault =>
    have hlaid' := h.laid
    rw [hlaid] at hlaid'
    cases hlaid'
  | ok layout =>
    have hrecord := (record_layOut hsound hlaid).1
    have hmax : (upTo false layout.nextLabel b.firstFree (b.points b.allocate.homes)
        (b.points b.allocate.homes).length).maxLocals ≤ 65535 := by
      rw [upTo_length]
      exact maxLocals_run_le h.slots.1 h.slots.2
    have hunplaced : (upTo false layout.nextLabel b.firstFree
        (b.points b.allocate.homes) (b.points b.allocate.homes).length).unplaced = [] :=
      unplaced_eq_nil (regular hsound b.allocate.homes)
    generalize upTo false layout.nextLabel b.firstFree (b.points b.allocate.homes)
      (b.points b.allocate.homes).length = r at hrecord hmax hunplaced
    have hend : ∃ r', b.completeEnd r = .ok r' := by
      unfold completeEnd
      rw [h.void.1, h.void.2]
      split <;> exact ⟨_, rfl⟩
    obtain ⟨r', hend⟩ := hend
    have hsame := maxLocals_completeEnd hend
    obtain ⟨hdead, hplaced, _⟩ := completeEnd_ok hend
    obtain ⟨notice, hcode⟩ := (toCode_of_finish hinit hlaid hrecord hend).2 _
      (finish_eq_ok_iff.mpr ⟨hdead, hplaced.trans hunplaced,
        Nat.lt_succ_of_le (hsame ▸ hmax), rfl⟩)
    exact ⟨_, notice, hcode⟩

theorem Body.exists_code_earlyReturn : ∃ code notice, earlyReturn.toCode = .ok (code, notice) :=
  exists_code built_earlyReturn (by constructor <;> decide +kernel)

theorem Body.exists_code_countdown : ∃ code notice, countdown.toCode = .ok (code, notice) :=
  exists_code built_countdown (by constructor <;> decide +kernel)

namespace Point

def expects? (l : Label) : Point → Option Status
  | label l' status => if l' = l then status else none
  | _ => none

theorem expects?_eq_some {p : Point} {status : Status} (h : p.expects? l = some status) :
    p = .label l (some status) := by
  cases p with
  | label l' status' =>
    rw [expects?] at h
    split at h
    · next heq => rw [heq, h]
    · cases h
  | _ => cases h

def expectedIn (ps : List Point) (l : Label) : Option Status := ps.findSome? (expects? l)

theorem mem_of_expectedIn {status : Status} (h : expectedIn ps l = some status) :
    .label l (some status) ∈ ps := by
  obtain ⟨p, hp, hl⟩ := exists_of_findSome?_eq_some h
  rwa [← expects?_eq_some hl]

theorem agrees_expectedIn (h : (placed ps).Nodup) :
    Plot.Agrees (expectedIn ps) ps := by
  intro l status hl
  cases hfound : expectedIn ps l with
  | none =>
    have hnone := findSome?_eq_none_iff.mp hfound _ hl
    simp [expects?] at hnone
  | some status' =>
    obtain ⟨i, hi⟩ := mem_iff_getElem?.mp hl
    obtain ⟨j, hj⟩ := mem_iff_getElem?.mp (mem_of_expectedIn hfound)
    cases label_unique h hi rfl hj rfl
    rw [hi] at hj
    cases hj
    rfl

end Point

namespace Plot

open Point

variable {b : Body} {homes : Array Home} {ψ : Label → Option Status} {voids : Prop}

def viewAt (vps : List (View × Point)) (last : View) (i : Nat) : View :=
  (vps[i]?.map Prod.fst).getD last

theorem Steps.moves {σ τ : View} {vps : List (View × Point)} (h : Steps b homes ψ voids σ vps τ) :
    σ.Suits voids (viewAt vps τ 0) ∧ ∀ i x, vps[i]? = some x →
      ∃ ρ, Move b homes ψ voids (viewAt vps τ i) x.2 ρ ∧ ρ.Suits voids (viewAt vps τ (i + 1)) := by
  induction h with
  | nil h => exact ⟨h, fun i x hx => by cases hx⟩
  | cons h hmove _ ih =>
    refine ⟨h, fun i x hx => ?_⟩
    cases i with
    | zero =>
      cases hx
      exact ⟨_, hmove, ih.1⟩
    | succ i => exact ih.2 i x hx

/-- What is known at every position of a body. -/
structure Viewed (b : Body) (homes : Array Home) (ψ : Label → Option Status) (voids : Prop)
    (views : Nat → View) : Prop where
  start : View.Suits voids ⟨[], none, b.params⟩ (views 0)
  move : ∀ {i : Nat} {p : Point}, (b.points homes)[i]? = some p →
    ∃ σ, Move b homes ψ voids (views i) p σ ∧ σ.Suits voids (views (i + 1))
  last : views (b.points homes).length = ⟨[], none, b.params⟩
  known : ∀ {l status}, ψ l = some status → .label l (some status) ∈ b.points homes
  guarded : ∀ {i : Nat} {start stop handler : Label} {holes : List (Label × Label)}
    {caught : Option ClassName},
    (b.points homes)[i]? = some (.protect start stop holes handler caught) →
    ∃ kept x, ψ handler = some (thrown kept) ∧ Stands code? (b.points homes) x (.label start) ∧
      x < i ∧ ∀ m, x < m → m < i → kept ⊆ (views m).kept

theorem exists_viewed (hb : b.Sound)
    (hvoids : voids → ∀ s, b.Region 0 s → ∀ op ∈ b.operations s, op.InitsVoid) :
    ∃ ψ views, Viewed b b.allocate.homes ψ voids views := by
  have hnodup := Body.placed_nodup hb b.allocate.homes
  obtain ⟨vps, hvps, hsteps, _, hguarded⟩ := flows_plot hb hvoids b.nextLabel
    (agrees_expectedIn hnodup)
  have hget : ∀ {i : Nat} {p : Point}, (b.points b.allocate.homes)[i]? = some p →
      ∃ x : View × Point, vps[i]? = some x ∧ x.2 = p := by
    intro i p hp
    have hp : (vps.map Prod.snd)[i]? = some p := by rw [hvps]; exact hp
    rw [getElem?_map] at hp
    exact Option.map_eq_some_iff.mp hp
  obtain ⟨hstart, hmoves⟩ := hsteps.moves
  refine ⟨expectedIn (b.points b.allocate.homes), viewAt vps ⟨[], none, b.params⟩, hstart,
    fun hp => ?_, ?_, mem_of_expectedIn, fun {i start stop handler holes caught} hp => ?_⟩
  · obtain ⟨x, hx, rfl⟩ := hget hp
    exact hmoves _ x hx
  · have hlen : vps.length = (b.points b.allocate.homes).length := by
      rw [← length_map (f := Prod.snd), hvps]
      rfl
    rw [viewAt, getElem?_eq_none (Nat.le_of_eq hlen)]
    rfl
  · obtain ⟨⟨σ, p⟩, hx, rfl⟩ := hget hp
    obtain ⟨hlt, hget'⟩ := List.getElem?_eq_some_iff.mp hx
    have hsplit : vps = vps.take i ++ (σ, .protect start stop holes handler caught) ::
        vps.drop (i + 1) := by
      rw [← hget', getElem_cons_drop, take_append_drop]
    obtain ⟨kept, hψ, hbefore | ⟨above, τ, status, within, hpre, hkept⟩⟩ :=
      hguarded _ _ _ _ _ _ _ _ hsplit
    · exact hbefore.1.elim
    · have hlen : i = above.length + 1 + within.length := by
        have hlen := congrArg List.length hpre
        rw [length_take, length_append, length_cons] at hlen
        omega
      have hbelow : ∀ m < i, vps[m]? = (above ++ (τ, .label start status) :: within)[m]? := by
        intro m hm
        rw [← hpre, getElem?_take, if_pos hm]
      refine ⟨kept, above.length, hψ, ⟨.label start status, ?_, rfl⟩, by omega, fun m hxm hmi => ?_⟩
      · have hlabel := hbelow above.length (by omega)
        rw [getElem?_append_right .refl, Nat.sub_self] at hlabel
        have hmap : (vps.map Prod.snd)[above.length]? = some (.label start status) := by
          rw [getElem?_map, hlabel]
          rfl
        rwa [hvps] at hmap
      · have hin : vps[m]? = within[m - above.length - 1]? := by
          rw [hbelow m hmi, getElem?_append_right (by omega),
            show m - above.length = m - above.length - 1 + 1 by omega, getElem?_cons_succ]
          congr 1
        have hlt' : m - above.length - 1 < within.length := by omega
        rw [getElem?_eq_getElem hlt'] at hin
        rw [viewAt, hin]
        exact hkept _ (getElem_mem hlt')

namespace Viewed

variable {views : Nat → View} {i j : Nat} {l : Label} {status : Status}

theorem label (h : Viewed b homes ψ voids views) (hnodup : (placed (b.points homes)).Nodup)
    (hl : ψ l = some status) (hj : Stands code? (b.points homes) j (.label l)) :
    (views j).Suits voids status.view := by
  obtain ⟨i, hi⟩ := mem_iff_getElem?.mp (h.known hl)
  cases stands_unique hnodup hj ⟨_, hi, rfl⟩
  obtain ⟨σ, hmove, _⟩ := h.move hi
  cases hmove with
  | label hσ => exact hσ

end Viewed
end Plot
end ClassAssembler
