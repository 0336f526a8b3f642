import ClassAssembler.Proofs.Layout.ArrayLoop

/-!
# Visiting the elements of an array

A turn of a loop ends behind its operations, or at a jump that continues the loop or breaks out of
it, from whatever scope inside and behind the finally blocks on the way. From there control goes on
where the loop repeats, or behind the loop.
-/

namespace ClassAssembler

open List Plot Recorder Machine Body Lay Charted

def Body.jumpsTo (b : Body) (target : Nat) : JumpKind → Label
  | .leave => exitOf b target
  | .again => againOf b target

/-- What is laid out for a jump ends with the jump itself and a label. -/
theorem Body.LaysOut.terminal {b : Body} {s target i j : Nat} {kind : JumpKind}
    {cleanups : List Cleanup} (h : b.LaysOut s (.jump kind target cleanups) i j) :
    ∃ t, j = t + 2 ∧ (b.points b.allocate.homes)[t]? =
      some (.branch (.goto (b.jumpsTo target kind)) (some ⟨s, some (some target)⟩)) := by
  obtain ⟨depth, status, _, hspan⟩ := h
  obtain ⟨k, _, m, hlies, rfl⟩ := Plot.Spans.split hspan
  refine ⟨k + 1, rfl, ?_⟩
  cases kind <;> exact hlies.tail.head

namespace ArrayLoop

/-- Where a turn of a loop ends: where the loop repeats, or at the jump that ends an operation of
a scope inside, if it continues the loop or breaks out of it. Behind such a jump is one label. -/
inductive TurnEnds (b : Body) (L : ArrayLoop) (at? : Nat → Option Entry) (again : Nat) :
    JumpKind → Nat → Prop
  | falls : TurnEnds b L at? again .again again
  | jumps {s i j : Nat} {e : Entry} {kind : JumpKind} {cleanups : List Cleanup} :
      b.Region L.looped s → .jump kind L.looped cleanups ∈ b.operations s →
      b.LaysOut s (.jump kind L.looped cleanups) i (j + 2) → at? j = some e →
      TurnEnds b L at? again kind (rank at? (List.range ((b.points b.allocate.homes).length + 1)) j)

def turnsTo (again stop : Nat) : JumpKind → Nat
  | .again => again
  | .leave => stop

/-- How the turns of a loop end. What is laid out for the loop ends where it repeats. All jumps to
the loop from inside are laid out between the place where an element is read and the one where the
loop repeats. From the end of a turn control comes to where the loop repeats, or behind the loop. -/
structure Turns (b : Body) (L : ArrayLoop) (code : Code) (at? : Nat → Option Entry)
    (load again stop : Nat) : Prop where
  falls : ∃ i j, b.LaysScope L.looped i j ∧
    rank at? (List.range ((b.points b.allocate.homes).length + 1)) j = again
  jumps : ∀ s kind cleanups, b.Region L.looped s → .jump kind L.looped cleanups ∈ b.operations s →
    ∃ i j, b.LaysOut s (.jump kind L.looped cleanups) i j ∧
      load < rank at? (List.range ((b.points b.allocate.homes).length + 1)) i ∧
      rank at? (List.range ((b.points b.allocate.homes).length + 1)) j ≤ again
  leads : ∀ {V W : Type} (K : Computer V W) (handler? : Nat → ClassName → Option Label) kind x w,
    L.TurnEnds b at? again kind x → ∃ way, (onEntries K.act handler?).Path code.entries
      (.running x w) way (.running (turnsTo again stop kind) w)

variable {b : Body} {code : Code} {chart : Charted b code} {L : ArrayLoop} {V W : Type}
  {K : Computer V W} {handler? : Nat → ClassName → Option Label} {c : Config W} {a : V} {w : W}
  {j n x : Nat} {kind : JumpKind}

variable (S : L.Sites b)

/-- The jump at the end of a turn goes to the label that the kind of the jump asks for. -/
theorem TurnEnds.leads (h : L.TurnEnds b (kept? chart.free b.firstFree chart.points)
      (chart.spot S.again) kind x) (w : W) : ∃ way, (onEntries K.act handler?).Path code.entries
        (.running x w) way (.running (turnsTo (chart.spot S.again) (chart.spot (S.turn + 1))
          kind) w) ∧
      ∀ s ∈ way, s.1 = x ∧ x ≠ chart.spot S.again := by
  cases h with
  | falls => exact ⟨[], .nil, fun _ hs => by cases hs⟩
  | @jumps s i j e _ cleanups _ _ hlays hj =>
    obtain ⟨t, ht, hp⟩ := hlays.terminal
    cases ht
    have hstands : chart.Stands j e :=
      stands_of_kept? (Nat.lt_succ_of_lt (List.getElem?_eq_some_iff.mp hp).1) hj
    rcases stands_kept hstands with ⟨p, hp', he, _⟩ | ⟨hlast, _, _⟩
    · cases hp.symm.trans hp'
      cases he
      refine ⟨[(chart.spot j, w)], .cons ?_ .nil, fun s hs => ?_⟩
      · cases kind with
        | again => exact step_jump hstands (K.goto _ w) S.repeats
        | leave => exact step_jump hstands (K.goto _ w) S.exits
      · cases mem_singleton.mp hs
        refine ⟨rfl, fun heq => ?_⟩
        have hagain := (stands_label S.repeats : chart.Stands _ _).entry
        rw [← heq] at hagain
        cases hstands.entry.symm.trans hagain
    · rw [hlast, getElem?_eq_none .refl] at hp
      cases hp

variable (code K handler?) in
/-- Whenever the body of a loop begins for the element at index `j`, it comes to an end of the turn,
and on its way only to positions between where the element is read and where the loop repeats. -/
def BodyEnds (ends : Nat → Prop) (c : Config W) (load again j : Nat) : Prop :=
  ∀ way w, (onEntries K.act handler?).Path code.entries c way (.running (load + 1) w) →
    (K.reads load way).length = j + 1 → ∃ x way' w', ends x ∧ load < x ∧ x ≤ again ∧
      (onEntries K.act handler?).Path code.entries (.running (load + 1) w) way' (.running x w') ∧
      ∀ s ∈ way', load < s.1 ∧ s.1 < again

theorem BodyEnds.comes (h : BodyEnds code K handler? (L.TurnEnds b (kept? chart.free b.firstFree
      chart.points) (chart.spot S.again) kind) c (chart.spot S.load) (chart.spot S.again) j)
    {way : List (Nat × W)} (hpath : (onEntries K.act handler?).Path code.entries c way
      (.running (chart.spot S.load + 1) w)) (hreads :
        (K.reads (chart.spot S.load) way).length = j + 1) :
    ∃ way' w', (onEntries K.act handler?).Path code.entries
        (.running (chart.spot S.load + 1) w) way'
        (.running (turnsTo (chart.spot S.again) (chart.spot (S.turn + 1)) kind) w') ∧
      ∀ s ∈ way', chart.spot S.load < s.1 ∧ s.1 < chart.spot S.again := by
  obtain ⟨x, way1, w1, hend, hload, hagain, hpath1, hway1⟩ := h way w hpath hreads
  obtain ⟨way2, hpath2, hway2⟩ := hend.leads S w1
  refine ⟨way1 ++ way2, w1, hpath1.append hpath2, fun s hs => ?_⟩
  rcases mem_append.mp hs with hs | hs
  · exact hway1 s hs
  · obtain ⟨hs, hne⟩ := hway2 s hs
    rw [hs]
    exact ⟨hload, Nat.lt_of_le_of_ne hagain hne⟩

/-- While the bodies come to an end, the loop reads one element after the other. -/
theorem after_rounds (hb : b.Sound) (hL : b.Iterates L) (hregion : b.Region 0 L.looped) {k : Nat}
    (hslot : homeOf b.allocate.homes L.array = .slot k) (hlength : K.length? a = some n)
    (hhandler : ∀ x cause l, handler? x cause = some l →
      ∃ caught, (l, caught) ∈ code.handlersAt x)
    (hchanges : ∀ s, b.Region L.looped s → ∀ op ∈ b.operations s,
      L.index ∉ op.changes ∧ L.array ∉ op.changes)
    (hlive : LiveAt chart.free b.firstFree chart.points S.start)
    (ha : K.locals w (UInt16.ofNat k) = some a) (m : Nat) (hm : m ≤ n)
    (hbody : ∀ j < m, BodyEnds code K handler? (L.TurnEnds b (kept? chart.free b.firstFree
      chart.points) (chart.spot S.again) .again) (.running (chart.spot S.start) w)
      (chart.spot S.load) (chart.spot S.again) j) :
    ∃ way w' data, (onEntries K.act handler?).Path code.entries
        (.running (chart.spot S.start) w) way
        (.running (chart.spot S.entry) w') ∧ K.reads (chart.spot S.load) way =
          (List.range m).map (fun i => [K.int (Int32.ofNat i), a]) ∧
      chart.At K S.entry data w' ∧ L.Counts K a m data := by
  have hindex := hL.home_index hb hregion
  have hordered := S.ordered
  induction m with
  | zero =>
    obtain ⟨data, w', hcounts, harrives, way, hpath, hway⟩ :=
      to_start handler? hL S hindex hb hslot hlive ha
    refine ⟨way, w', data, hpath, ?_, harrives, hcounts⟩
    exact K.reads_eq_nil fun s hs => Nat.ne_of_lt (Nat.lt_of_lt_of_le (hway s hs).2
      (chart.spot_le (by omega)))
  | succ m ih =>
    obtain ⟨way, w1, data1, hpath, htrace, hat, hcounts⟩ :=
      ih (by omega) fun j hj => hbody j (by omega)
    obtain ⟨data2, w2, way2, hcounts2, hstands, hat2, hpath2, hreads2⟩ :=
      reads_element handler? hb hL hregion S hslot hlength hcounts hm hat
    have hpath := hpath.append hpath2
    have htrace : K.reads (chart.spot S.load) (way ++ way2) =
        (List.range (m + 1)).map (fun i => [K.int (Int32.ofNat i), a]) := by
      rw [K.reads_append, htrace, hreads2, range_succ, List.map_append]
      rfl
    obtain ⟨way3, w3, hpath3, hway3⟩ := (hbody m (Nat.lt_succ_self m)).comes S hpath
      (by simpa using congrArg List.length htrace)
    -- The body leaves index and array alone.
    obtain ⟨data3, hat3, hsame⟩ := Charted.At.along hhandler (stands_label S.repeats)
      (fun m p v hm hm' hp => quiet hb hL S hchanges hm hm' hp) hpath3 hway3
      (by rw [hstands.spot_succ]) hat2 (by rw [hstands.spot_succ]; exact Nat.lt_succ_self _)
    obtain ⟨data4, w4, hcounts4, harrives, way4, hpath4, hway4⟩ := to_entry handler? hL S hindex
      ⟨(hsame _ (.inr rfl)).trans hcounts2.1, (hsame _ (.inl rfl)).trans hcounts2.2⟩ hat3
    refine ⟨_, w4, data4, (hpath.append hpath3).append hpath4, ?_, harrives, hcounts4⟩
    rw [K.reads_append, K.reads_append, K.reads_eq_nil fun s hs => Nat.ne_of_gt (hway3 s hs).1,
      K.reads_eq_nil fun s hs =>
        Nat.ne_of_gt (Nat.lt_of_lt_of_le (hstands.spot_lt S.load_lt) (hway4 s hs).1),
      List.append_nil, List.append_nil, htrace]

end ArrayLoop

/-- From the start of the loop on, an array of length `n` has its elements read at indices from `0`
to `n - 1`, in order and each one once, whatever the body does, if each turn ends behind the body or
continues the loop, and then control goes on behind the loop. If the body breaks out of the loop in
turn `m`, then `m + 1` elements are read. The index does not overflow. -/
def ArrayLoop.Visits (L : ArrayLoop) (b : Body) (code : Code) (start : Nat) : Prop :=
  ∃ layout at? k load again stop, b.layOut b.allocate.homes = .ok layout ∧
    at? = kept? layout.nextLabel b.firstFree (b.points b.allocate.homes) ∧
    code.RecordedFrom (b.points b.allocate.homes) at? ∧
    homeOf b.allocate.homes L.array = .slot k ∧
    code.entries[load]? = some (.insn (.arrayLoad L.kind)) ∧
    code.entries[again]? = some (.label (againOf b L.looped)) ∧
    code.entries[stop]? = some (.label (exitOf b L.looped)) ∧
    start < load ∧ load < again ∧ again < stop ∧ L.Turns b code at? load again stop ∧
    ∀ (V W : Type) (K : Computer V W) (handler? : Nat → ClassName → Option Label) (w : W) (a : V)
      (n : Nat),
      (∀ x cause l, handler? x cause = some l → ∃ caught, (l, caught) ∈ code.handlersAt x) →
      K.locals w (UInt16.ofNat k) = some a → K.length? a = some n →
      (∀ i ≤ n, (Int32.ofNat i).toInt = i) ∧ ∀ m ≤ n,
        (∀ j < m, BodyEnds code K handler? (L.TurnEnds b at? again .again) (.running start w)
          load again j) →
        (m < n → BodyEnds code K handler? (L.TurnEnds b at? again .leave) (.running start w)
          load again m) →
        ∃ way w', (onEntries K.act handler?).Path code.entries (.running start w) way
            (.running stop w') ∧ K.reads load way =
              (List.range (min (m + 1) n)).map fun i => [K.int (Int32.ofNat i), a]

theorem ArrayLoop.visits {b b' : Body} {code : Code} {notice : Notice} (hb : b.Built)
    (hinit : b.completeInit = .ok b') (hcode : b.toCode = .ok (code, notice)) {here : Nat}
    {L : ArrayLoop} (hhere : b'.Region 0 here) (hblock : .block L.outer ∈ b'.operations here)
    (hL : b'.Iterates L) (hconstant : homeOf b'.allocate.homes L.array ≠ .constant)
    (hchanges : ∀ s, b'.Region L.looped s → ∀ op ∈ b'.operations s,
      L.index ∉ op.changes ∧ L.array ∉ op.changes)
    {start : Nat} (hstart : code.entries[start]? = some (.label (entryOf b' L.outer)))
    (hreach : Reach some code.entries code.ranges start) : L.Visits b' code start := by
  have hfinished := hb.finished
  have hsound := (hfinished.completeInit hinit).sound
  obtain ⟨chart⟩ := exists_charted hfinished hinit hcode
  obtain ⟨S⟩ := ArrayLoop.exists_sites hsound hL hhere hblock
  have hregion : b'.Region 0 L.looped := (hhere.step (mem_owned hblock
    (.head _))).step hL.looped_owned
  obtain ⟨k, hslot⟩ := hL.home_array hsound hregion hconstant
  -- Control can come to the loop.
  obtain ⟨status, hbegins⟩ := S.begins
  have hregular := chart.surveyed.regular
  rw [chart.entries] at hstart
  rw [chart.entries, chart.ranges] at hreach
  obtain ⟨i, hi, hreached, rfl⟩ := exists_reached hregular hstart hreach
  cases Point.stands_unique hregular.nodup hi ⟨_, hbegins, rfl⟩
  have hlive := liveAt_of_reach hregular hreached
  -- It can come to where an element is read, since an array can have one.
  obtain ⟨_, _, hcounts, hgoes⟩ := ArrayLoop.to_start (K := .sample)
    (w := ([], fun _ => some (.inr 1))) (fun _ _ => none) hL S (hL.home_index hsound hregion) hsound
    hslot hlive rfl
  obtain ⟨_, _, _, _, hstands, _⟩ := ArrayLoop.reads_element (fun _ _ => none) hsound hL hregion S
    hslot (n := 1) rfl hcounts (Nat.lt_succ_self 0) hgoes.arrives
  have hordered := S.ordered
  have hload_lt := S.load_lt
  have hagain := chart.stands_label S.repeats
  have hstop := chart.stands_label S.exits
  refine ⟨chart.layout, _, k, chart.spot S.load, chart.spot S.again, chart.spot (S.turn +
    1), chart.laid, rfl,
    Code.recordedFrom hregular chart.entries chart.ranges, hslot, hstands.entry, hagain.entry,
    hstop.entry, (chart.stands_label hi).spot_lt (by omega), hstands.spot_lt hload_lt,
    hagain.spot_lt (by omega), ⟨⟨_, _, S.body, rfl⟩, fun s kind cleanups hs hop => ?_,
      fun K handler? kind x w hend => ?_⟩, fun V W K handler? w a n hhandler ha hn =>
      ⟨fun i hi => ?_, fun m hm hbody hbreak => ?_⟩⟩
  · obtain ⟨i, j, hlays, hi, hj⟩ := S.jumps s _ hs hop (by simp [ArrayLoop.header])
    exact ⟨i, j, hlays, hstands.spot_lt hi, chart.spot_le hj⟩
  · obtain ⟨way, hpath, _⟩ := hend.leads S w
    exact ⟨way, hpath⟩
  · have hlt := K.length_lt hn
    exact Int32.toInt_ofNat_of_lt (by omega)
  · obtain ⟨way, w1, data, hpath, htrace, hat, hcounts⟩ := ArrayLoop.after_rounds S hsound hL
      hregion hslot hn hhandler hchanges hlive ha m hm hbody
    rcases Nat.lt_or_ge m n with hlt | hge
    · obtain ⟨_, w2, way2, _, _, _, hpath2, hreads2⟩ := ArrayLoop.reads_element handler? hsound hL
        hregion S hslot hn hcounts hlt hat
      obtain ⟨way3, w3, hpath3, hway3⟩ := (hbreak hlt).comes S (hpath.append hpath2)
        (by rw [K.reads_append, htrace, hreads2]; simp)
      refine ⟨_, w3, (hpath.append hpath2).append hpath3, ?_⟩
      rw [K.reads_append, K.reads_append, K.reads_eq_nil fun s hs => Nat.ne_of_gt (hway3 s hs).1,
        List.append_nil, hreads2, htrace, Nat.min_eq_left hlt, range_succ, List.map_append]
      rfl
    · obtain ⟨_, w2, _, hgoes⟩ :=
      ArrayLoop.to_test handler? hsound hL hregion S hslot hn hcounts hm hat
      rw [if_neg (Nat.not_lt.mpr hge)] at hgoes
      obtain ⟨_, way2, hpath2, hway2⟩ := hgoes
      refine ⟨_, w2, hpath.append hpath2, ?_⟩
      rw [K.reads_append, K.reads_eq_nil fun s hs => Nat.ne_of_lt (Nat.lt_of_lt_of_le (hway2 s hs).2
        (chart.spot_le (by omega))), List.append_nil, htrace, Nat.min_eq_right (Nat.le_succ_of_le
          hge),
        Nat.le_antisymm hm hge]

def Point.isBranch : Point → Bool
  | branch _ _ => true
  | _ => false

/-- The sample computer passes all points but branches. -/
theorem Charted.passes {b : Body} {code : Code} {chart : Charted b code} {i j : Nat} (hij : i ≤ j)
    (hlive : LiveAt chart.free b.firstFree chart.points i)
    (hflat : ∀ m, i ≤ m → m < j → ∃ p, chart.points[m]? = some p ∧ p.isBranch = false)
    (w : Computer.SampleState) : ∃ way w', LiveAt chart.free b.firstFree chart.points j ∧
        (onEntries Computer.sample.act fun _ _ => none).Path
        code.entries (.running (chart.spot i) w) way (.running (chart.spot j) w') ∧
      ∀ s ∈ way, chart.spot i ≤ s.1 ∧ s.1 < chart.spot j := by
  obtain ⟨d, rfl⟩ := Nat.exists_eq_add_of_le hij
  induction d generalizing i w with
  | zero => exact ⟨[], w, hlive, .nil, fun _ hs => by cases hs⟩
  | succ d ih =>
    obtain ⟨p, hp, hbranch⟩ := hflat i (Nat.le_refl i) (by omega)
    have hrest : ∀ m, i + 1 ≤ m → m < i + 1 + d →
        ∃ p, chart.points[m]? = some p ∧ p.isBranch = false := fun m hm hm' =>
      hflat m (by omega) (by omega)
    rw [show i + (d + 1) = i + 1 + d by omega]
    cases he : p.code? with
    | none =>
      obtain ⟨way, w', hlive', hpath, hway⟩ := ih (.inl (hlive.skip hp he)) w
        (Nat.le_add_right ..) hrest
      rw [spot_of_none hp he] at hpath hway
      exact ⟨way, w', hlive', hpath, hway⟩
    | some e =>
      have hstands := stands_of_live hlive hp he
      obtain ⟨hfalls, w1, hact⟩ : e.fallsThrough ∧ ∃ w1, Computer.sample.act e w = .next w1 := by
        cases p with
        | branch => cases hbranch
        | label | insn => cases he; exact ⟨rfl, _, rfl⟩
        | _ => cases he
      obtain ⟨way, w', hlive', hpath, hway⟩ := ih (.inl (hlive.next ⟨p, hp, he⟩ hfalls)) w1
        (Nat.le_add_right ..) hrest
      have hnext : chart.spot i + 1 = chart.spot (i + 1) := hstands.spot_succ.symm
      refine ⟨(chart.spot i, w) :: way, w', hlive',
        .cons (step_next (stands_some_iff.mpr hstands.entry) hact) (hnext ▸ hpath), fun s hs => ?_⟩
      rcases mem_cons.mp hs with rfl | hs
      · exact ⟨.refl, hstands.spot_lt (by omega)⟩
      · have := hway s hs
        omega

end ClassAssembler
