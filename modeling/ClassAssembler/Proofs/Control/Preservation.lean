import ClassAssembler.Proofs.Control.Rows

/-!
# Control flow is preserved

The code of a body without try statements does what the body says: the same simple operations one
after another, and the same end, whatever its conditions and selectors turn out to be.
-/

namespace ClassAssembler

open List Machine Body

section rows

variable (rows : List (Line (Option Entry))) (oracle : Oracle) (chance : Nat → Bool)

def rowsAfter (n : Nat) : Config Tape :=
  (Tape.rowMachine oracle chance).run rows n (.running 0 .start)

def RowsDo (ops : List (Nat × Nat)) : Prop :=
  ∃ n t, (rowsAfter rows oracle chance n).state? = some t ∧ ops <+: t.done

def RowsEnd (ops : List (Nat × Nat)) (ending : Ending) : Prop :=
  ∃ n t, rowsAfter rows oracle chance n = .halted t ∧ t.done = ops ∧ t.ending = ending

end rows

namespace Tape

variable {oracle : Oracle} {chance : Nat → Bool} {t t' : Tape}

theorem done_act {e : Entry} (h : (act chance e t).state? = some t') : t'.done = t.done := by
  have hchoose : ∀ br, (choose br t).state? = some t' → t'.done = t.done := by
    intro br h
    rcases choose_cases br t with ⟨l, _, heq⟩ | heq
    · rw [heq] at h
      cases h
      rfl
    · rw [heq] at h
      cases h
  cases e with
  | label l =>
    cases h
    rfl
  | insn i =>
    obtain ⟨top, text, heq⟩ := t.insn_eq i
    change some (t.insn i) = some t' at h
    rw [heq] at h
    cases h
    rfl
  | branch br =>
    cases br with
    | jumpIf test l =>
      obtain ⟨holds, t1, halike, hjump⟩ := exists_jumpWhen chance test l t
      change (jumpIf chance test l t).state? = some t' at h
      rw [hjump] at h
      cases holds <;> cases h <;> exact congrArg Course.done halike.course
    | tableSwitch fallback low targets => exact hchoose _ h
    | lookupSwitch fallback targets => exact hchoose _ h
    | _ =>
      cases h
      rfl

theorem done_pass {α : Type} (line : Line α) (t : Tape) : t.done <+: (t.pass oracle line).done := by
  cases line with
  | mark m =>
    cases m with
    | begins scope index => exact prefix_append _ _
    | decides => exact prefix_rfl
    | ends scope index => exact prefix_rfl
  | item a => exact prefix_rfl

end Tape

section rows

variable {rows : List (Line (Option Entry))} {oracle : Oracle} {chance : Nat → Bool} {n n' : Nat}
  {t t' : Tape}

theorem done_rowsAfter (hle : n ≤ n') (h : (rowsAfter rows oracle chance n).state? = some t)
    (h' : (rowsAfter rows oracle chance n').state? = some t') : t.done <+: t'.done := by
  obtain ⟨k, rfl⟩ := Nat.exists_eq_add_of_le hle
  rw [rowsAfter, run_add] at h'
  refine run_rel (R := fun t t' => t.done <+: t'.done) (fun _ => prefix_rfl)
    (fun _ _ _ => List.IsPrefix.trans) (fun line t _ => Tape.done_pass line t)
      (fun e t t' h => ?_) h h'
  exact ⟨[], by rw [List.append_nil, Tape.done_act h]⟩

theorem rowsAfter_of_halted (hle : n ≤ n') (h : rowsAfter rows oracle chance n = .halted t) :
    rowsAfter rows oracle chance n' = .halted t := by
  obtain ⟨k, rfl⟩ := Nat.exists_eq_add_of_le hle
  rw [rowsAfter, run_add]
  rw [rowsAfter] at h
  rw [h, run_halted]

theorem rowsAfter_of_stuck (hle : n ≤ n') (h : rowsAfter rows oracle chance n = .stuck) :
    rowsAfter rows oracle chance n' = .stuck := by
  obtain ⟨k, rfl⟩ := Nat.exists_eq_add_of_le hle
  rw [rowsAfter, run_add]
  rw [rowsAfter] at h
  rw [h, run_stuck]

end rows

section body

variable {b : Body} {homes : Array Home} {free params passes n i : Nat} {oracle : Oracle}
  {chance : Nat → Bool} {t : Tape} {config : Config Tape}

def Body.scriptAfter (b : Body) (homes : Array Home) (oracle : Oracle) (chance : Nat → Bool)
    (n : Nat) : Config Tape :=
  (Tape.machine oracle chance Point.code?).run (b.script homes) n (.running 0 .start)

structure Body.Scripted (b : Body) : Prop where
  sound : b.Sound
  untried : b.Untried
  nodup : ∀ s S, .switch S ∈ b.operations s → (S.arms.flatMap Arm.keys).Nodup

namespace Body.Scripted

theorem regular (hb : b.Scripted) : Point.Regular ((b.script homes).filterMap Line.item?) := by
  rw [items_script hb.untried]
  exact Body.regular hb.sound homes

theorem lands (hb : b.Scripted) (homes : Array Home) (oracle : Oracle) (chance : Nat → Bool)
    (passes : Nat) :
    Stage.Lands ⟨b, oracle, chance, passes, b.script homes, Line.distinct hb.regular⟩ passes
      (.running 0 .start) (b.script homes).length (b.course oracle passes) := by
  let A : Stage := ⟨b, oracle, chance, passes, b.script homes, Line.distinct hb.regular⟩
  have hfollows : A.Follows (b.conductScope oracle passes b.scopes.size 0)
      (.operations b homes b.scopes.size 0 ⟨[], b.params⟩) :=
    Stage.follows_operations hb.sound hb.untried hb.nodup .refl (Nat.le_refl _) _
  have hlands := hfollows.enclosed b.nextLabel 0 ⟨[], 0⟩ .start prefix_rfl ⟨rfl, rfl⟩
  rwa [Nat.zero_add] at hlands

theorem reached_zero : Recorder.Reached free params ((b.script homes).filterMap Line.item?)
    (Line.place (b.script homes) 0) :=
  .start

section

variable (hb : b.Scripted)
include hb

theorem rowsAfter_eq (h : b.scriptAfter homes oracle chance n = config)
    (hconfig : config ≠ .stuck) :
    rowsAfter (keptRows free params (b.script homes)) oracle chance n = config := by
  subst h
  exact (agrees_keptRows hb.regular).run reached_zero n hconfig

theorem reached (h : b.scriptAfter homes oracle chance n = .running i t) :
    Recorder.Reached free params ((b.script homes).filterMap Line.item?)
      (Line.place (b.script homes) i) :=
  (agrees_keptRows hb.regular).live_of_run reached_zero h

/-- The rows of a body end as its course does, or they run on while loops are given up. -/
theorem rowsAfter_course (passes : Nat) :
    ∃ n, b.scriptAfter homes oracle chance n ≠ .stuck ∧
      ((∃ t, rowsAfter (keptRows free params (b.script homes)) oracle chance (n + 1) = .halted t ∧
        t.done = (b.course oracle passes).1.done ∧
        (b.course oracle passes).2.ending? = some t.ending) ∨
      ∃ i t, passes ≤ n ∧
        rowsAfter (keptRows free params (b.script homes)) oracle chance n = .running i t ∧
        t.done = (b.course oracle passes).1.done ∧ (b.course oracle passes).2.ending? = none) := by
  have hlands := hb.lands homes oracle chance passes
  have hends := course_ends_or_spent hb.sound oracle passes
  have hne : ∀ {n i t}, b.scriptAfter homes oracle chance n = .running i t →
      b.scriptAfter homes oracle chance n ≠ .stuck := fun hrun => by rw [hrun]; exact nofun
  generalize b.course oracle passes = r at hlands hends
  cases hlands with
  | @falls c t ht hleads =>
    obtain ⟨n, hrun⟩ := hleads
    have hend : Stands (Tape.rowMachine oracle chance).code? (keptRows free params _) _ _ :=
      ⟨_, (executes_keptRows hb.regular (hb.reached hrun)).2 rfl, rfl⟩
    refine ⟨n, hne hrun, .inl ⟨t, ?_, congrArg Course.done ht.course, congrArg some ht.ending.symm⟩⟩
    rw [rowsAfter, run_add]
    exact (congrArg _ (hb.rowsAfter_eq hrun nofun)).trans (step_act hend)
  | leaves =>
    rcases hends with ⟨ending, hending⟩ | hspent
    · cases hending
    · cases hspent
  | repeats =>
    rcases hends with ⟨ending, hending⟩ | hspent
    · cases hending
    · cases hspent
  | @ends c t scope index hc hending hleads =>
    obtain ⟨n, hrun⟩ := hleads
    refine ⟨n, fun h => ?_, .inl ⟨t, ?_, congrArg Course.done hc, congrArg some hending.symm⟩⟩
    · cases h.symm.trans hrun
    · exact rowsAfter_of_halted (Nat.le_succ n) (hb.rowsAfter_eq hrun nofun)
  | @spent c t n i hle ht hrun =>
    exact ⟨n, hne hrun, .inr ⟨i, t, hle, hb.rowsAfter_eq hrun nofun,
      congrArg Course.done ht.course, rfl⟩⟩

/-- The script does not get stuck either, so its run is that of the rows. -/
theorem scriptAfter_eq
    (h : rowsAfter (keptRows free params (b.script homes)) oracle chance n = .running i t) :
    b.scriptAfter homes oracle chance n = .running i t := by
  obtain ⟨n', hstuck, hcourse⟩ : ∃ n', b.scriptAfter homes oracle chance n' ≠ .stuck ∧ _ :=
    hb.rowsAfter_course n
  have hle : n ≤ n' := by
    rcases hcourse with ⟨t', hhalted, _⟩ | ⟨_, _, hle, _⟩
    · refine Nat.le_of_not_lt fun hlt => ?_
      rw [rowsAfter_of_halted hlt hhalted] at h
      cases h
    · exact hle
  obtain ⟨k, rfl⟩ := Nat.exists_eq_add_of_le hle
  refine (hb.rowsAfter_eq rfl fun hn => hstuck ?_).symm.trans h
  rw [scriptAfter, run_add, ← scriptAfter, hn, run_stuck]

/-- Where a run of the rows is, its row executes what stands there. -/
theorem executes
    (h : rowsAfter (keptRows free params (b.script homes)) oracle chance n = .running i t) :
    Executes (b.script homes) (keptRows free params (b.script homes)) i :=
  executes_keptRows hb.regular (hb.reached (hb.scriptAfter_eq h))

theorem does_iff (ops : List (Nat × Nat)) :
    b.Does oracle ops ↔ RowsDo (keptRows free params (b.script homes)) oracle chance ops := by
  constructor
  · rintro ⟨passes, hops⟩
    obtain ⟨n, _, ⟨t, hrun, hdone, _⟩ | ⟨i, t, _, hrun, hdone, _⟩⟩ := hb.rowsAfter_course passes
    · exact ⟨n + 1, t, by rw [hrun]; rfl, hdone ▸ hops⟩
    · exact ⟨n, t, by rw [hrun]; rfl, hdone ▸ hops⟩
  · rintro ⟨n, t, hstate, hops⟩
    -- With as many passes as there are steps, the course comes at least as far.
    refine ⟨n, hops.trans ?_⟩
    obtain ⟨n', _, ⟨t', hrun, hdone, _⟩ | ⟨i, t', hle, hrun, hdone, _⟩⟩ := hb.rowsAfter_course n
    · rw [← hdone]
      rcases Nat.le_total n (n' + 1) with hle | hle
      · exact done_rowsAfter hle hstate (by rw [hrun]; rfl)
      · rw [rowsAfter_of_halted hle hrun] at hstate
        cases hstate
        exact prefix_rfl
    · rw [← hdone]
      exact done_rowsAfter hle hstate (by rw [hrun]; rfl)

theorem ends_iff (ops : List (Nat × Nat)) (ending : Ending) :
    b.Ends oracle ops ending ↔
      RowsEnd (keptRows free params (b.script homes)) oracle chance ops ending := by
  constructor
  · rintro ⟨passes, rfl, hending⟩
    obtain ⟨n, _, ⟨t, hrun, hdone, hsome⟩ | ⟨_, _, _, _, _, hnone⟩⟩ := hb.rowsAfter_course passes
    · rw [hending] at hsome
      exact ⟨n + 1, t, hrun, hdone, (Option.some.inj hsome).symm⟩
    · rw [hending] at hnone
      cases hnone
  · rintro ⟨n, t, hrun, rfl, rfl⟩
    refine ⟨n, ?_⟩
    obtain ⟨n', _, ⟨t', hrun', hdone, hsome⟩ | ⟨i, t', hle, hrun', _⟩⟩ := hb.rowsAfter_course n
    · have heq : t' = t := by
        rcases Nat.le_total n (n' + 1) with hle | hle
        · rw [rowsAfter_of_halted hle hrun] at hrun'
          cases hrun'
          rfl
        · rw [rowsAfter_of_halted hle hrun'] at hrun
          cases hrun
          rfl
      exact heq ▸ ⟨hdone.symm, hsome⟩
    · rw [rowsAfter_of_halted hle hrun] at hrun'
      cases hrun'

/-- A run never gets stuck. -/
theorem not_stuck (n : Nat) :
    rowsAfter (keptRows free params (b.script homes)) oracle chance n ≠ .stuck := by
  intro hstuck
  obtain ⟨n', _, ⟨t, hrun, _⟩ | ⟨i, t, hle, hrun, _⟩⟩ := hb.rowsAfter_course n
  · rcases Nat.le_total n (n' + 1) with hle | hle
    · rw [rowsAfter_of_stuck hle hstuck] at hrun
      cases hrun
    · rw [rowsAfter_of_halted hle hrun] at hstuck
      cases hstuck
  · rw [rowsAfter_of_stuck hle hstuck] at hrun
    cases hrun

end

end Body.Scripted
end body

/-- The code of a body without try statements does what the body says. Its entries are those of
rows with marks, which tell what each of them is there for; and whatever the conditions and
selectors turn out to be, a run of the rows runs the same simple operations as the body, one after
another, and ends just as the body does. Every row that a run comes to executes all that was laid
out there. -/
theorem control_flow_preserved {b b' : Body} {code : Code} {notice : Notice} (hb : b.Built)
    (hinit : b.completeInit = .ok b') (hcode : b.toCode = .ok (code, notice))
    (huntried : ∀ s, b'.Region 0 s → ∀ T, .tryCatch T ∉ b'.operations s) :
    ∃ rows, rows.filterMap (Line.code? id) = code.entries ∧
      Recorded (b'.script b'.allocate.homes) rows ∧
      ∀ oracle chance,
        (∀ ops, b'.Does oracle ops ↔ RowsDo rows oracle chance ops) ∧
        (∀ ops ending, b'.Ends oracle ops ending ↔ RowsEnd rows oracle chance ops ending) ∧
        (∀ n, rowsAfter rows oracle chance n ≠ .stuck) ∧
        ∀ n i t, rowsAfter rows oracle chance n = .running i t →
          Executes (b'.script b'.allocate.homes) rows i := by
  have hsound := (hb.finished.completeInit hinit).sound
  have hscripted : b'.Scripted := by
    refine ⟨hsound, untried hsound huntried, fun s S hS => ?_⟩
    obtain ⟨⟨table, hkeyed⟩, _⟩ := hb.keyed hinit s S hS
    exact hkeyed.nodup
  have hitems : (b'.script b'.allocate.homes).filterMap Line.item? = b'.points b'.allocate.homes :=
    items_script hscripted.untried
  obtain ⟨layout, _, hentries, _⟩ := toCode_kept hsound hinit hcode
  refine ⟨keptRows layout.nextLabel b'.firstFree (b'.script b'.allocate.homes), ?_, ?_,
    fun oracle chance => ⟨hscripted.does_iff, hscripted.ends_iff, hscripted.not_stuck,
      fun _ _ _ => hscripted.executes⟩⟩
  · rw [entries_rowsOf, hitems, hentries, range_eq_range']
  · exact recorded_keptRows

def Oracle.twice : Oracle := fun n => ⟨if n < 2 then 1 else 0, []⟩

theorem Body.untried_countdown (s : Nat) (T : TryStatement) :
    .tryCatch T ∉ countdown.operations s := by
  intro h
  obtain ⟨i, hi⟩ := getElem?_of_mem h
  rcases s with _ | _ | s
  · rcases i with _ | _ | _ | i <;> cases hi
  · rcases i with _ | _ | _ | _ | i <;> cases hi
  · cases hi

theorem Body.ends_countdown : countdown.Ends .twice
    [(0, 0), (1, 0), (1, 1), (1, 3), (1, 0), (1, 1), (1, 3), (1, 0), (1, 1)] (.exits 0 2) :=
  ⟨3, by decide +kernel⟩

/-- Counting down from two, the code compares three times, and returns. -/
theorem control_flow_preserved_countdown :
    countdown.Built ∧ countdown.completeInit = .ok countdown ∧
      (∀ s, countdown.Region 0 s → ∀ T, .tryCatch T ∉ countdown.operations s) ∧
      ∃ code notice, countdown.toCode = .ok (code, notice) ∧
        ∃ rows, rows.filterMap (Line.code? id) = code.entries ∧
          Recorded (countdown.script countdown.allocate.homes) rows ∧
          ∀ chance, RowsEnd rows .twice chance
            [(0, 0), (1, 0), (1, 1), (1, 3), (1, 0), (1, 1), (1, 3), (1, 0), (1, 1)] (.exits 0 2) ∧
            ∀ n i t, rowsAfter rows .twice chance n = .running i t →
              Executes (countdown.script countdown.allocate.homes) rows i := by
  have hinit : countdown.completeInit = .ok countdown :=
    completeInit_of_called (by decide +kernel)
  obtain ⟨code, notice, hcode⟩ := exists_code_countdown
  obtain ⟨rows, hentries, hrecorded, hrows⟩ := control_flow_preserved built_countdown hinit hcode
    fun s _ => untried_countdown s
  exact ⟨built_countdown, hinit, fun s _ => untried_countdown s, code, notice, hcode, rows,
    hentries, hrecorded, fun chance =>
      ⟨((hrows .twice chance).2.1 _ _).mp ends_countdown, (hrows .twice chance).2.2.2⟩⟩

end ClassAssembler
