import ClassAssembler.Proofs.Build.Built
import ClassAssembler.Proofs.Layout.Live
import ClassAssembler.Proofs.Layout.Reads

/-!
# Sealing a body

What can come out when a body that was built is turned into code.
-/

namespace ClassAssembler

open List Body Recorder

namespace Recorder

open Point

section placed

variable {force : Bool} {free params : Nat} {ps : List Point}

theorem labels_upTo (i : Nat) :
    (upTo force free params ps i).entries.toList.filterMap Entry.label? = Point.placed
      (ps.take i) := by
  rw [Point.placed, filterMap_take]
  refine upTo_eq_flatMap (·.entries.toList.filterMap Entry.label?) rfl (fun k hp => by rw [hp]; rfl)
    fun k p hp => ?_
  rw [entries_point, filterMap_append, hp]
  refine congrArg _ ?_
  cases p with
  | insn _ _ _ | branch _ _ =>
    simp only [Point.code?, Option.toList_some, filter_cons]
    split <;> rfl
  | _ => rfl

theorem mem_entries {i : Nat} {e : Entry} (h : e ∈ (upTo force free params ps i).entries.toList) :
    ∃ k < i, Stands code? ps k e := by
  rw [entries_eq] at h
  obtain ⟨k, hk, he⟩ := mem_flatMap.mp h
  obtain ⟨hmem, _⟩ := mem_filter.mp he
  obtain ⟨p, hp, he⟩ := Option.bind_eq_some_iff.mp (Option.mem_toList.mp hmem)
  exact ⟨k, mem_range.mp hk, p, hp, he⟩

theorem wellPlaced (h : Regular ps) :
    WellPlaced (upTo force free params ps ps.length).entries.toList
      (upTo force free params ps ps.length).ranges.toList := by
  have hlabels : (upTo force free params ps ps.length).entries.toList.filterMap Entry.label? =
      Point.placed ps := by rw [labels_upTo, take_length]
  have haims : ∀ {k : Nat} {p : Point} {l : Label}, ps[k]? = some p → l ∈ p.aims →
      l ∈ Point.placed ps := fun hp hl =>
    h.placed _ (mem_flatMap.mpr ⟨_, mem_of_getElem? hp, hl⟩)
  refine ⟨hlabels ▸ h.nodup, fun e he l hl => ?_, fun range hr l hl => ?_⟩
  · obtain ⟨k, _, p, hp, hentry⟩ := mem_entries he
    rw [hlabels]
    cases p with
    | branch b site =>
      cases hentry
      exact haims hp hl
    | insn i role site =>
      cases hentry
      cases hl
    | label l' status =>
      cases hentry
      cases hl
    | _ => cases hentry
  · obtain ⟨k, _, start, stop, holes, hp, _, x, y, _, _, hx, hy, _⟩ :=
      (mem_ranges_iff h.nodup).mp hr
    rw [hlabels]
    simp only [ExceptionRange.labels, mem_cons, not_mem_nil, or_false] at hl
    rcases hl with rfl | rfl | rfl
    · exact mem_placed_iff.mpr ⟨x, hx⟩
    · exact mem_placed_iff.mpr ⟨y, hy⟩
    · exact haims hp (mem_singleton.mpr rfl)

theorem contains_placed (h : Regular ps) {l : Label} (hl : l ∈ Point.placed ps) :
    (upTo force free params ps ps.length).placed.contains l := by
  obtain ⟨k, p, hp, he⟩ := mem_placed_iff.mp hl
  have hget : (upTo force free params ps ps.length).placed[l]? =
      some (upTo force free params ps k).position := (placed_iff h.nodup).mpr
    ⟨k, (List.getElem?_eq_some_iff.mp hp).1, p, hp, label?_eq_some_iff.mpr he, rfl⟩
  rw [Std.HashMap.contains_eq_isSome_getElem?, hget]
  rfl

theorem unplaced_eq_nil (h : Regular ps) : (upTo force free params ps ps.length).unplaced = [] := by
  have hwell : WellPlaced (upTo force free params ps ps.length).entries.toList
      (upTo force free params ps ps.length).ranges.toList := wellPlaced h
  have hall : ∀ l ∈ (upTo force free params ps ps.length).referenced.toList ++
      (upTo force free params ps ps.length).ranges.toList.flatMap fun range =>
        [range.start, range.stop],
      (upTo force free params ps ps.length).placed.contains l := by
    intro l hl
    refine contains_placed h ?_
    rcases mem_append.mp hl with hl | hl
    · have hnamed : (upTo force free params ps ps.length).referenced.contains l := by
        simpa using hl
      obtain ⟨k, _, p, hp, hnames⟩ := referenced_iff.mp hnamed
      exact h.placed l (mem_flatMap.mpr
        ⟨p, mem_of_getElem? hp, mem_aims_of_names hnames⟩)
    · obtain ⟨range, hr, hl⟩ := mem_flatMap.mp hl
      have hmem : l ∈ range.labels := by
        simp only [ExceptionRange.labels, mem_cons] at hl ⊢
        grind
      have hlabels := hwell.ranges range hr l hmem
      rwa [labels_upTo, take_length] at hlabels
  have hfilter : (((upTo force free params ps ps.length).referenced.toList ++
      (upTo force free params ps ps.length).ranges.toList.flatMap fun range =>
        [range.start, range.stop]).filter fun label =>
          !(upTo force free params ps ps.length).placed.contains label) = [] := by
    refine filter_eq_nil_iff.mpr fun l hl hnot => ?_
    rw [hall l hl] at hnot
    cases hnot
  unfold unplaced
  dsimp only
  rw [hfilter]
  simp

end placed

theorem finish_eq {r : Recorder} (hend : r.reachable = false) (hplaced : r.unplaced = []) :
    (∃ code, r.finish = .ok code ∧ code.entries = r.entries.toList ∧
      code.ranges = r.ranges.toList) ∨ ∃ n, r.finish = .error (.localsOverflow n) := by
  unfold finish
  dsimp only
  rw [hend, hplaced, if_neg (by simp)]
  split
  · exact .inl ⟨_, rfl, rfl, rfl⟩
  · exact .inr ⟨_, rfl⟩

end Recorder

namespace Operation

def scopes : Operation → List Nat
  | jump kind target cleanups => target :: (jump kind target cleanups).owned
  | exitUnless cond target => target :: (exitUnless cond target).owned
  | op => op.owned

end Operation

namespace Body

/-- Operations name scopes and values that are there, and every value has a home. -/
structure InBounds (b : Body) : Prop where
  scopes : ∀ s, ∀ op ∈ b.operations s, ∀ c ∈ op.scopes, c < b.scopes.size
  values : ∀ s, ∀ op ∈ b.operations s, ∀ v ∈ op.needs ++ op.defines, v < b.values.size
  homes : b.allocate.homes.size = b.values.size

variable {b b' : Body}

theorem inBounds (hb : b.Sound) : b.InBounds where
  scopes s op hop c hc := by
    have hlt := lt_size_of_mem_operations hop
    have howned : c ∈ op.owned → c < b.scopes.size := fun h => hb.owned_lt (mem_owned hop h)
    have hfits := hb.fits hop
    cases op with
    | jump kind target cleanups =>
      rcases mem_cons.mp hc with rfl | hc
      · exact hfits.1.lt_size hlt hb.descends
      · exact howned hc
    | exitUnless cond target =>
      rcases mem_cons.mp hc with rfl | hc
      · rw [hfits.1]
        exact hlt
      · exact howned hc
    | _ => exact howned hc
  values s op hop v hv := by
    rcases mem_append.mp hv with hv | hv
    · obtain ⟨l1, l2, hops⟩ := append_of_mem hop
      obtain ⟨info, hinfo, _⟩ := hb.visible hops v hv
      exact (Array.getElem?_eq_some_iff.mp hinfo).1
    · exact defines_lt hb (mem_flatMap.mpr ⟨op, hop, hv⟩)
  homes := (Allocation.scope_housed hb b.scopes.size 0 (.start b) (size_start b)).1.size.trans
    (size_start b)

theorem completeInit_eq (h : b.completeInit = .ok b') :
    b'.method = b.method ∧ b'.settings = b.settings := by
  rcases completeInit_cases h with rfl | ⟨_, rfl⟩ <;> exact ⟨rfl, rfl⟩

theorem completeInit_of_called (h : b.init.all (·.called)) : b.completeInit = .ok b := by
  unfold completeInit
  split
  · next hinit _ =>
    rw [hinit] at h
    cases h
  · rfl

theorem completeInit_error {fault : Fault} (h : b.completeInit = .error fault) :
    fault = .missingInit b.method := by
  unfold completeInit at h
  split at h
  · split at h
    · cases h
    · cases h
      rfl
  · cases h

section stages

variable {layout : Layout} {r r' : Recorder} (hinit : b.completeInit = .ok b')
  (hlay : b'.layOut b'.allocate.homes = .ok layout)
  (hrecord : layout.record (.start layout.nextLabel b'.firstFree) = .ok () r)

theorem toCode_of_init {fault : Fault} (h : b.completeInit = .error fault) :
    b.toCode = .error fault := by
  simp only [toCode, h, bind, Except.bind]

include hinit

theorem toCode_of_layOut {fault : Fault} (h : b'.layOut b'.allocate.homes = .error fault) :
    b.toCode = .error fault := by
  simp only [toCode, hinit, h, bind, Except.bind]

include hlay hrecord

theorem toCode_of_end {fault : Fault} (h : b'.completeEnd r = .error fault) :
    b.toCode = .error fault := by
  simp only [toCode, hinit, hlay, hrecord, h, bind, Except.bind]

theorem toCode_of_finish (h : b'.completeEnd r = .ok r') :
    (∀ fault, r'.finish = .error fault → b.toCode = .error (.code fault)) ∧
      ∀ code, r'.finish = .ok code → ∃ notice, b.toCode = .ok (code, notice) := by
  refine ⟨fun fault hfinish => ?_, fun code hfinish =>
    ⟨.sealed b'.method code.instructionCount code.ranges.length b'.allocate.maxLocals
      b'.allocate.kept, ?_⟩⟩
  · simp only [toCode, hinit, hlay, hrecord, h, hfinish, bind, Except.bind]
  · simp only [toCode, hinit, hlay, hrecord, h, hfinish, bind, Except.bind]

end stages

theorem completeEnd_cases (b : Body) (r : Recorder) :
    (r.reachable = true ∧ (b.method.type.returns ≠ none ∨ b.settings.voidReturn = false) ∧
      b.completeEnd r = .error (.missingTerminal b.method)) ∨
    ((r.reachable = false ∨ b.method.type.returns = none ∧ b.settings.voidReturn = true) ∧
      ∃ r', b.completeEnd r = .ok r' ∧ r'.reachable = false ∧ r'.unplaced = r.unplaced ∧
        r'.ranges = r.ranges ∧
        (r'.entries = r.entries ∨ r'.entries = r.entries.push (.branch (.ret none)))) := by
  cases hreach : r.reachable with
  | false =>
    refine .inr ⟨.inl rfl, r, ?_, hreach, rfl, rfl, .inl rfl⟩
    simp [completeEnd, hreach]
  | true =>
    cases hvoid : b.method.type.returns.isNone && b.settings.voidReturn with
    | false =>
      refine .inl ⟨rfl, ?_, by simp [completeEnd, hreach, hvoid]⟩
      rw [Bool.and_eq_false_iff] at hvoid
      refine hvoid.imp_left fun h hnone => ?_
      rw [hnone] at h
      cases h
    | true =>
      rw [Bool.and_eq_true, Option.isNone_iff_eq_none] at hvoid
      refine .inr ⟨.inr hvoid, r.branch (.ret none), ?_⟩
      have hbranch : r.branch (.ret none) =
          { r with
            reachable := false
            entries := r.entries.push (.branch (.ret none))
            position := r.position + 1 } := by
        unfold branch
        rw [if_pos hreach]
        rfl
      refine ⟨by simp [completeEnd, hreach, hvoid.1, hvoid.2], ?_⟩
      rw [hbranch]
      exact ⟨rfl, rfl, rfl, .inr rfl⟩

/-- What is wrong with a body that is built as it should be, but cannot be sealed. -/
inductive SealFault (b : Body) : Fault → Prop
  | missingInit : SealFault b (.missingInit b.method)
  | missingTerminal : SealFault b (.missingTerminal b.method)
  | localsOverflow (slots : Nat) : SealFault b (.code (.localsOverflow slots))

theorem record_layOut (hb : b.Sound) {layout : Layout}
    (hlay : b.layOut b.allocate.homes = .ok layout) :
    layout.record (.start layout.nextLabel b.firstFree) = .ok () (.upTo false layout.nextLabel
      b.firstFree (b.points b.allocate.homes) (b.points b.allocate.homes).length) ∧
    layout.items.toList = (b.points b.allocate.homes).filterMap Point.item? := by
  rcases layOut_ok_or_overflow hb with ⟨layout', hlay', hitems⟩ | ⟨n, hover⟩
  · rw [hlay] at hlay'
    cases hlay'
    rw [upTo_length]
    exact ⟨Layout.record_eq hitems (placed_nodup hb _) _ _, hitems⟩
  · rw [hlay] at hover
    cases hover

theorem wellPlaced_push {es : List Entry} {ranges : List ExceptionRange} {e : Entry}
    (h : WellPlaced es ranges) (hlabel : e.label? = none) (htargets : e.targets = []) :
    WellPlaced (es ++ [e]) ranges := by
  have hlabels : (es ++ [e]).filterMap Entry.label? = es.filterMap Entry.label? := by
    rw [filterMap_append, filterMap_cons, hlabel]
    simp
  refine ⟨hlabels ▸ h.nodup, fun e' he l hl => ?_, fun range hr l hl => ?_⟩
  · rw [hlabels]
    rcases mem_append.mp he with he | he
    · exact h.targets e' he l hl
    · cases mem_singleton.mp he
      rw [htargets] at hl
      cases hl
  · rw [hlabels]
    exact h.ranges range hr l hl

/-- A body whose constructor check passes is sealed, or has one of the other two faults. -/
theorem toCode_cases (hb : b'.Sound) (hinit : b.completeInit = .ok b') :
    (∃ fault, b.toCode = .error fault ∧ b.SealFault fault) ∨
      ∃ code notice, b.toCode = .ok (code, notice) ∧ WellPlaced code.entries code.ranges := by
  have hregular := regular hb b'.allocate.homes
  rcases layOut_ok_or_overflow hb with ⟨layout, hlay, _⟩ | ⟨n, hover⟩
  · have hrecord := (record_layOut hb hlay).1
    rcases completeEnd_cases b' (.upTo false layout.nextLabel b'.firstFree
        (b'.points b'.allocate.homes) (b'.points b'.allocate.homes).length) with
      ⟨_, _, hend⟩ | ⟨_, r', hend, hdead, hunplaced, hranges, hentries⟩
    · refine .inl ⟨_, toCode_of_end hinit hlay hrecord hend, ?_⟩
      rw [(completeInit_eq hinit).1]
      exact .missingTerminal
    · rw [unplaced_eq_nil hregular] at hunplaced
      obtain ⟨herror, hok⟩ := toCode_of_finish hinit hlay hrecord hend
      rcases finish_eq hdead hunplaced with ⟨code, hfinish, hcode, hcode'⟩ | ⟨n, hfinish⟩
      · obtain ⟨notice, hnotice⟩ := hok code hfinish
        refine .inr ⟨code, notice, hnotice, ?_⟩
        rw [hcode, hcode', hranges]
        rcases hentries with heq | heq
        · rw [heq]
          exact wellPlaced hregular
        · rw [heq, Array.toList_push]
          exact wellPlaced_push (wellPlaced hregular) rfl rfl
      · exact .inl ⟨_, herror _ hfinish, .localsOverflow n⟩
  · exact .inl ⟨_, toCode_of_layOut hinit hover, .localsOverflow n⟩

theorem exists_completeInit {x : Code × Notice} (h : b.toCode = .ok x) :
    ∃ b', b.completeInit = .ok b' := by
  cases hinit : b.completeInit with
  | error fault =>
    rw [toCode_of_init hinit] at h
    cases h
  | ok b' => exact ⟨b', rfl⟩

theorem Finished.wellPlaced (hb : b.Finished) {code : Code} {notice : Notice}
    (hcode : b.toCode = .ok (code, notice)) : WellPlaced code.entries code.ranges := by
  obtain ⟨b', hinit⟩ := exists_completeInit hcode
  rcases toCode_cases (hb.completeInit hinit).sound hinit with
    ⟨fault, herror, _⟩ | ⟨code', notice', hok, hwell⟩
  · rw [hcode] at herror
    cases herror
  · rw [hcode] at hok
    cases hok
    exact hwell

end Body

/-- Sealing a body that was built, by calls that failed or not, gives code or one of three
faults. Whatever is recorded on the way has the labels it needs, operations name nothing
that is not there, and what is laid out reads no value without a home. -/
theorem sealing_outcomes {b : Body} (hb : b.Built) :
    ((∃ fault, b.toCode = .error fault ∧ b.SealFault fault) ∨
      ∃ code notice, b.toCode = .ok (code, notice) ∧ WellPlaced code.entries code.ranges) ∧
    ∀ b', b.completeInit = .ok b' →
      b'.InBounds ∧
      (∀ s, b'.Region 0 s → ∀ op ∈ b'.operations s, ∀ o ∈ op.operands,
        Lay.homeOf b'.allocate.homes o.value ≠ .nowhere) ∧
      ∀ layout, b'.layOut b'.allocate.homes = .ok layout →
        ∃ r, layout.record (.start layout.nextLabel b'.firstFree) = .ok () r ∧
          r.unplaced = [] ∧ WellPlaced r.entries.toList r.ranges.toList := by
  have hsound : ∀ {b'}, b.completeInit = .ok b' → b'.Sound := fun hinit =>
    (hb.finished.completeInit hinit).sound
  constructor
  · cases hinit : b.completeInit with
    | error fault =>
      refine .inl ⟨fault, toCode_of_init hinit, ?_⟩
      rw [completeInit_error hinit]
      exact .missingInit
    | ok b' => exact toCode_cases (hsound hinit) hinit
  · intro b' hinit
    have hb' := hsound hinit
    refine ⟨inBounds hb', fun s hs op hop o ho => ?_, fun layout hlay => ?_⟩
    · obtain ⟨l1, l2, hops⟩ := append_of_mem hop
      exact home_read hb' hs hops (mem_map_of_mem ho)
    · have hregular := regular hb' b'.allocate.homes
      exact ⟨_, (record_layOut hb' hlay).1, unplaced_eq_nil hregular,
        wellPlaced hregular⟩

/-- A try statement with an early return, and a call that was refused, is laid out and has its
labels. -/
theorem sealing_outcomes_earlyReturn :
    earlyReturn.Built ∧ ∃ layout r,
      earlyReturn.layOut earlyReturn.allocate.homes = .ok layout ∧
      layout.record (.start layout.nextLabel earlyReturn.firstFree) = .ok () r ∧
      r.unplaced = [] ∧ WellPlaced r.entries.toList r.ranges.toList := by
  have hlaid : (earlyReturn.layOut earlyReturn.allocate.homes).toOption.isSome := by
    decide +kernel
  cases hlay : earlyReturn.layOut earlyReturn.allocate.homes with
  | error fault =>
    rw [hlay] at hlaid
    cases hlaid
  | ok layout =>
    obtain ⟨r, hrecord, hplaced⟩ := ((sealing_outcomes built_earlyReturn).2 earlyReturn
      (completeInit_of_called (by decide +kernel))).2.2 layout hlay
    exact ⟨built_earlyReturn, layout, r, rfl, hrecord, hplaced⟩

end ClassAssembler
