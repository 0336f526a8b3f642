import ClassAssembler.Proofs.Control.Lowering

/-!
# Code with marks

The rows of some code are what was recorded of a script: its marks, and for every point the entry
that was recorded of it, if any.
-/

namespace ClassAssembler

open List Machine Recorder

namespace Line

variable {α : Type} {ls : List (Line α)} {i j : Nat} {a : α} {m : Mark}

def place (ls : List (Line α)) (j : Nat) : Nat := ((ls.take j).filterMap item?).length

theorem place_le (h : i ≤ j) : place ls i ≤ place ls j :=
  ((take_sublist_take_left h).filterMap item?).length_le

theorem place_length : place ls ls.length = (ls.filterMap item?).length := by
  rw [place, take_length]

theorem place_of_mark (h : ls[j]? = some (.mark m)) : place ls (j + 1) = place ls j := by
  rw [place, take_add_one, h, filterMap_append, length_append]
  rfl

theorem place_of_item (h : ls[j]? = some (.item a)) : place ls (j + 1) = place ls j + 1 := by
  rw [place, take_add_one, h, filterMap_append, length_append]
  rfl

theorem getElem?_place (h : ls[j]? = some (.item a)) : (ls.filterMap item?)[place ls j]? =
    some a := by
  induction ls generalizing j with
  | nil => cases h
  | cons l ls ih =>
    cases j with
    | zero =>
      cases h
      rfl
    | succ j =>
      have hrest := ih h
      cases l with
      | mark m => exact hrest
      | item a => exact hrest

theorem eq_of_place {a' : α} (hi : ls[i]? = some (.item a)) (hj : ls[j]? = some (.item a'))
    (h : place ls i = place ls j) : i = j := by
  have hi' := place_of_item hi
  have hj' := place_of_item hj
  rcases Nat.lt_trichotomy i j with hlt | rfl | hlt
  · have hle : place ls (i + 1) ≤ place ls j := place_le hlt
    omega
  · rfl
  · have hle : place ls (j + 1) ≤ place ls i := place_le hlt
    omega

end Line

namespace Line

variable {ls : List (Line Point)} {i j : Nat} {e : Entry} {l : Label}

theorem stands_place (h : Stands (code? Point.code?) ls j e) :
    Stands Point.code? (ls.filterMap item?) (place ls j) e := by
  obtain ⟨line, hline, he⟩ := h
  cases line with
  | mark m => cases he
  | item p => exact ⟨p, getElem?_place hline, he⟩

theorem edge_place (h : Edge (code? Point.code?) ls [] i j) :
    place ls i = place ls j ∨ Edge Point.code? (ls.filterMap item?) [] (place ls i)
      (place ls j) := by
  have hsucc : ∀ {e}, Stands (code? Point.code?) ls i e → place ls (i + 1) = place ls i + 1 := by
    rintro e ⟨line, hline, he⟩
    cases line with
    | mark m => cases he
    | item p => exact place_of_item hline
  cases h with
  | @skip line hline he =>
    cases line with
    | mark m => exact .inl (place_of_mark hline).symm
    | item p =>
      rw [place_of_item hline]
      exact .inr (.skip (getElem?_place hline) he)
  | next hi hfalls =>
    rw [hsucc hi]
    exact .inr (.next (stands_place hi) hfalls)
  | jump hi ht hj => exact .inr (.jump (stands_place hi) ht (stands_place hj))
  | throw _ _ hr => cases hr

theorem distinct (h : Point.Regular (ls.filterMap item?)) : Distinct (code? Point.code?) ls := by
  intro i j l hi hj
  have hplace := Point.stands_unique h.nodup (stands_place hi) (stands_place hj)
  obtain ⟨line, hi, he⟩ := hi
  obtain ⟨line', hj, he'⟩ := hj
  cases line with
  | mark m => cases he
  | item p =>
    cases line' with
    | mark m => cases he'
    | item p' => exact eq_of_place hi hj hplace

end Line

/-- Rows that were recorded of lines: of a point its entry or nothing, and behind the end a return
or nothing. -/
inductive Recorded : List (Line Point) → List (Line (Option Entry)) → Prop
  | stop {e? : Option Entry} : e? = none ∨ e? = some (.branch (.ret none)) → Recorded [] [.item e?]
  | mark {ls : List (Line Point)} {rows : List (Line (Option Entry))} (m : Mark) :
      Recorded ls rows → Recorded (.mark m :: ls) (.mark m :: rows)
  | item {ls : List (Line Point)} {rows : List (Line (Option Entry))} {e? : Option Entry}
      (p : Point) :
      e? = none ∨ e? = p.code? → Recorded ls rows → Recorded (.item p :: ls) (.item e? :: rows)

/-- The row at a position has the whole entry of what stands there, and behind the end a return. -/
def Executes (ls : List (Line Point)) (rows : List (Line (Option Entry))) (i : Nat) : Prop :=
  (∀ p, ls[i]? = some (.item p) → rows[i]? = some (.item p.code?)) ∧
    (i = ls.length → rows[i]? = some (.item (some (.branch (.ret none)))))

def rowsOf (keep : Nat → Option Entry) : Nat → List (Line Point) → List (Line (Option Entry))
  | first, [] => [.item (keep first)]
  | first, .mark m :: ls => .mark m :: rowsOf keep first ls
  | first, .item _ :: ls => .item (keep first) :: rowsOf keep (first + 1) ls

section rows

variable {keep : Nat → Option Entry} {first j : Nat} {ls : List (Line Point)}

theorem entries_rowsOf (keep : Nat → Option Entry) (first : Nat) (ls : List (Line Point)) :
    (rowsOf keep first ls).filterMap (Line.code? id) =
      (range' first ((ls.filterMap Line.item?).length + 1)).filterMap keep := by
  induction ls generalizing first with
  | nil => rfl
  | cons line ls ih =>
    cases line with
    | mark m => exact ih first
    | item p =>
      show ([Line.item (keep first)] ++ rowsOf keep (first + 1) ls).filterMap _ =
        ([first] ++ range' (first + 1) ((ls.filterMap Line.item?).length + 1)).filterMap keep
      rw [filterMap_append, filterMap_append, ih]
      rfl

theorem rowsOf_mark {m : Mark} (h : ls[j]? = some (.mark m)) :
    (rowsOf keep first ls)[j]? = some (.mark m) := by
  induction ls generalizing first j with
  | nil => cases h
  | cons line ls ih =>
    cases j with
    | zero =>
      cases h
      rfl
    | succ j =>
      cases line with
      | mark m => exact ih h
      | item p => exact ih h

theorem rowsOf_item (h : (∃ p, ls[j]? = some (.item p)) ∨ j = ls.length) :
    (rowsOf keep first ls)[j]? = some (.item (keep (first + Line.place ls j))) := by
  induction ls generalizing first j with
  | nil =>
    rcases h with ⟨p, h⟩ | rfl
    · cases h
    · rfl
  | cons line ls ih =>
    cases j with
    | zero =>
      rcases h with ⟨p, h⟩ | h
      · cases h
        rfl
      · cases h
    | succ j =>
      have hrest : (∃ p, ls[j]? = some (.item p)) ∨ j = ls.length := by
        rcases h with h | h
        · exact .inl h
        · exact .inr (Nat.succ.inj h)
      cases line with
      | mark m => exact ih hrest
      | item p =>
        have hplace : first + Line.place (.item p :: ls) (j + 1) = first + 1 + Line.place ls j := by
          rw [Nat.add_assoc, Nat.add_comm 1]
          rfl
        rw [hplace]
        exact ih hrest

theorem length_rowsOf : (rowsOf keep first ls).length = ls.length + 1 := by
  induction ls generalizing first with
  | nil => rfl
  | cons line ls ih =>
    cases line with
    | mark m => exact congrArg (· + 1) ih
    | item p => exact congrArg (· + 1) ih

theorem stands_rowsOf {e : Entry} (h : Stands (Line.code? id) (rowsOf keep first ls) j e) :
    keep (first + Line.place ls j) = some e ∧ ((∃ p, ls[j]? = some (.item p)) ∨ j = ls.length) := by
  obtain ⟨row, hrow, he⟩ := h
  have hlt := (List.getElem?_eq_some_iff.mp hrow).1
  rw [length_rowsOf] at hlt
  have hitem : (∃ p, ls[j]? = some (.item p)) ∨ j = ls.length := by
    rcases Nat.lt_or_ge j ls.length with hj | hj
    · cases hline : ls[j] with
      | mark m =>
        rw [rowsOf_mark (List.getElem?_eq_some_iff.mpr ⟨hj, hline⟩)] at hrow
        cases hrow
        cases he
      | item p => exact .inl ⟨p, List.getElem?_eq_some_iff.mpr ⟨hj, hline⟩⟩
    · exact .inr (by omega)
  rw [rowsOf_item hitem] at hrow
  cases hrow
  exact ⟨he, hitem⟩

theorem recorded_rowsOf
    (hpoint : ∀ i p, (ls.filterMap Line.item?)[i]? = some p →
      keep (first + i) = none ∨ keep (first + i) = p.code?)
    (hstop : keep (first + (ls.filterMap Line.item?).length) = none ∨
      keep (first + (ls.filterMap Line.item?).length) = some (.branch (.ret none))) :
    Recorded ls (rowsOf keep first ls) := by
  induction ls generalizing first with
  | nil => exact .stop hstop
  | cons line ls ih =>
    cases line with
    | mark m => exact .mark m (ih hpoint hstop)
    | item p =>
      have hnext : ∀ i, first + 1 + i = first + (i + 1) := fun i => by omega
      refine .item p (hpoint 0 p rfl) (ih (fun i q hq => ?_) ?_)
      · rw [hnext]
        exact hpoint (i + 1) q hq
      · rw [hnext]
        exact hstop

end rows

theorem stands_range_iff {f : Nat → Option Entry} {n i : Nat} {e : Entry} :
    Stands f (List.range n) i e ↔ i < n ∧ f i = some e := by
  constructor
  · rintro ⟨k, hk, he⟩
    obtain ⟨hlt, rfl⟩ := List.getElem?_eq_some_iff.mp hk
    rw [getElem_range] at he
    exact ⟨by simpa using hlt, he⟩
  · rintro ⟨hlt, he⟩
    exact ⟨i, getElem?_range hlt, he⟩

section agrees

variable {free params : Nat} {ls : List (Line Point)} {oracle : Oracle} {chance : Nat → Bool}

abbrev Tape.rowMachine (oracle : Oracle) (chance : Nat → Bool) :
    Machine (Line (Option Entry)) Tape :=
  machine oracle chance id

abbrev keptRows (free params : Nat) (ls : List (Line Point)) : List (Line (Option Entry)) :=
  rowsOf (kept? free params (ls.filterMap Line.item?)) 0 ls

theorem recorded_keptRows : Recorded ls (keptRows free params ls) := by
  refine recorded_rowsOf (fun i p hp => ?_) ?_
  · rw [Nat.zero_add, kept?, hp]
    dsimp only
    cases p.code? with
    | none => exact .inl rfl
    | some e =>
      rw [Option.filter]
      split
      · exact .inr rfl
      · exact .inl rfl
  · rw [Nat.zero_add, kept?, getElem?_eq_none .refl]
    dsimp only
    split
    · exact .inr rfl
    · exact .inl rfl

theorem stands_label_keptRows {j : Nat} {l : Label} :
    Stands (Line.code? id) (keptRows free params ls) j (.label l) ↔
      Stands (Line.code? Point.code?) ls j (.label l) := by
  constructor
  · intro h
    obtain ⟨hkeep, hitem⟩ := stands_rowsOf h
    rw [Nat.zero_add] at hkeep
    have hle : Line.place ls j ≤ (ls.filterMap Line.item?).length := by
      rw [← Line.place_length]
      refine Line.place_le ?_
      rcases hitem with ⟨p, hp⟩ | rfl
      · exact Nat.le_of_lt (List.getElem?_eq_some_iff.mp hp).1
      · exact Nat.le_refl _
    have hstands := stands_kept_label
      (stands_range_iff.mpr ⟨Nat.lt_succ_of_le hle, hkeep⟩)
    rcases hitem with ⟨p, hp⟩ | rfl
    · obtain ⟨p', hp', hcode⟩ := hstands
      rw [Line.getElem?_place hp] at hp'
      cases hp'
      exact ⟨.item p, hp, hcode⟩
    · have hlt := hstands.lt_length
      rw [Line.place_length] at hlt
      exact absurd hlt (Nat.lt_irrefl _)
  · rintro ⟨line, hline, hl⟩
    cases line with
    | mark m => cases hl
    | item p =>
      have hkept : Stands (kept? free params _) _ _ (.label l) :=
        kept_label (Line.stands_place ⟨.item p, hline, hl⟩)
      refine ⟨_, rowsOf_item (.inl ⟨p, hline⟩), ?_⟩
      rw [Nat.zero_add]
      exact (stands_range_iff.mp hkept).2

/-- A row that control comes to executes all that was laid out there. -/
theorem executes_keptRows (h : Point.Regular (ls.filterMap Line.item?))
    (hreached : Recorder.Reached free params (ls.filterMap Line.item?) (Line.place ls i)) :
    Executes ls (keptRows free params ls) i := by
  have hlive := liveAt_of_reach h hreached
  refine ⟨fun p hp => ?_, fun hi => ?_⟩
  · rw [keptRows, rowsOf_item (.inl ⟨p, hp⟩), Nat.zero_add]
    refine congrArg (some ∘ Line.item) ?_
    cases he : p.code? with
    | none =>
      rw [kept?, Line.getElem?_place hp]
      dsimp only
      rw [he]
      rfl
    | some e => exact kept_of_liveAt (Line.getElem?_place hp) he hlive
  · subst hi
    rw [keptRows, rowsOf_item (.inr rfl), Nat.zero_add]
    rw [Line.place_length] at hlive ⊢
    rw [kept?, getElem?_eq_none .refl]
    exact congrArg (some ∘ Line.item)
      (if_pos ⟨rfl, hlive.live fun l hl => absurd hl.lt_length (Nat.lt_irrefl _)⟩)

theorem agrees_keptRows (h : Point.Regular (ls.filterMap Line.item?)) :
    (Tape.machine oracle chance Point.code?).Agrees ls (Tape.rowMachine oracle chance)
      (keptRows free params ls)
      fun j => Recorder.Reached free params (ls.filterMap Line.item?) (Line.place ls j) where
  act := rfl
  handler _ _ _ hl := hl
  labels _ _ := stands_label_keptRows
  lines j line hj hline := by
    cases line with
    | mark m =>
      refine ⟨.mark m, rowsOf_mark hline, rfl, fun _ => ?_⟩
      cases m <;> rfl
    | item p => exact ⟨_, (executes_keptRows h hj).1 p hline, rfl, fun _ => rfl⟩
  closed i w j w' hi hstep := by
    rcases Machine.edge_of_step Tape.sensible hstep with hedge | ⟨_, _, _, _, _, _, hl, _⟩
    · rcases Line.edge_place hedge with hplace | hedge
      · exact hplace ▸ hi
      · exact hi.edge hedge
    · cases hl

end agrees
end ClassAssembler
