import ClassAssembler.Code.Basic

/-!
# Paths through code

Control passes from an entry to the next one, jumps to a label, or goes to a handler from any
instruction that an exception range covers.
-/

namespace ClassAssembler

open List

namespace Entry

def fallsThrough : Entry → Bool
  | branch b => b.fallsThrough
  | _ => true

def label? : Entry → Option Label
  | label l => some l
  | _ => none

end Entry

/-- Labels stand where entries and ranges need them, each once. -/
structure WellPlaced (entries : List Entry) (ranges : List ExceptionRange) : Prop where
  nodup : (entries.filterMap Entry.label?).Nodup
  targets : ∀ e ∈ entries, ∀ l ∈ e.targets, l ∈ entries.filterMap Entry.label?
  ranges : ∀ range ∈ ranges, ∀ l ∈ range.labels, l ∈ entries.filterMap Entry.label?

section paths

variable {α : Type} (code? : α → Option Entry)

def Stands (ps : List α) (i : Nat) (e : Entry) : Prop := ∃ p, ps[i]? = some p ∧ code? p = some e

def Covers (ps : List α) (range : ExceptionRange) (i : Nat) : Prop :=
  ∃ start stop, Stands code? ps start (.label range.start) ∧
    Stands code? ps stop (.label range.stop) ∧ start < i ∧ i < stop

/-- Control may pass from one position to another. -/
inductive Edge (ps : List α) (ranges : List ExceptionRange) : Nat → Nat → Prop
  | skip {i : Nat} {p : α} : ps[i]? = some p → code? p = none → Edge ps ranges i (i + 1)
  | next {i : Nat} {e : Entry} : Stands code? ps i e → e.fallsThrough → Edge ps ranges i (i + 1)
  | jump {i j : Nat} {e : Entry} {target : Label} : Stands code? ps i e → target ∈ e.targets →
      Stands code? ps j (.label target) → Edge ps ranges i j
  | throw {i j : Nat} {e : Entry} {range : ExceptionRange} : Stands code? ps i e → ¬ e.isLabel →
      range ∈ ranges → Covers code? ps range i → Stands code? ps j (.label range.handler) →
      Edge ps ranges i j

/-- The positions that control can reach from the start. -/
inductive Reach (ps : List α) (ranges : List ExceptionRange) : Nat → Prop
  | start : Reach ps ranges 0
  | step {i j : Nat} : Reach ps ranges i → Edge code? ps ranges i j → Reach ps ranges j

def rank (ps : List α) (i : Nat) : Nat := ((ps.take i).filterMap code?).length

variable {code?} {ps : List α} {ranges : List ExceptionRange} {i j : Nat} {e : Entry}

variable (code?) (ps) in
theorem rank_le (h : i ≤ j) : rank code? ps i ≤ rank code? ps j :=
  ((take_sublist_take_left h).filterMap code?).length_le

theorem rank_succ_of_none {p : α} (h : ps[i]? = some p) (he : code? p = none) :
    rank code? ps (i + 1) = rank code? ps i := by
  rw [rank, take_add_one, h, filterMap_append]
  simp [he, rank]

namespace Stands

variable (h : Stands code? ps i e)
include h

theorem lt_length : i < ps.length := by
  obtain ⟨p, hp, _⟩ := h
  exact (List.getElem?_eq_some_iff.mp hp).1

theorem unique {e' : Entry} (h' : Stands code? ps i e') : e = e' := by
  obtain ⟨p, hp, he⟩ := h
  obtain ⟨p', hp', he'⟩ := h'
  rw [hp] at hp'
  cases hp'
  rw [he] at he'
  cases he'
  rfl

theorem rank_succ : rank code? ps (i + 1) = rank code? ps i + 1 := by
  obtain ⟨p, hp, he⟩ := h
  rw [rank, take_add_one, hp, filterMap_append]
  simp [he, rank]

theorem rank_lt (hij : i < j) : rank code? ps i < rank code? ps j := by
  have hle := rank_le code? ps (Nat.succ_le_of_lt hij)
  rw [h.rank_succ] at hle
  exact hle

theorem le_of_rank (hle : rank code? ps j ≤ rank code? ps i) : j ≤ i := by
  rcases Nat.lt_or_ge i j with hlt | hge
  · exact absurd (h.rank_lt hlt) (Nat.not_lt.mpr hle)
  · exact hge

theorem filterMap : Stands some (ps.filterMap code?) (rank code? ps i) e := by
  obtain ⟨p, hp, he⟩ := h
  refine ⟨e, ?_, rfl⟩
  obtain ⟨hlt, rfl⟩ := List.getElem?_eq_some_iff.mp hp
  have hsplit : ps = ps.take i ++ ps[i] :: ps.drop (i + 1) := by
    rw [getElem_cons_drop, take_append_drop]
  rw [rank]
  conv => lhs; arg 1; rw [hsplit]
  rw [filterMap_append, filterMap_cons, he, getElem?_append_right (Nat.le_refl _)]
  simp

end Stands

theorem exists_stands {x : Nat} (h : Stands some (ps.filterMap code?) x e) :
    ∃ i, Stands code? ps i e ∧ rank code? ps i = x := by
  obtain ⟨e', hx, he⟩ := h
  cases he
  induction ps generalizing x with
  | nil => cases hx
  | cons p ps ih =>
    cases he : code? p with
    | none =>
      rw [filterMap_cons, he] at hx
      obtain ⟨i, ⟨q, hq, heq⟩, hi⟩ := ih hx
      refine ⟨i + 1, ⟨q, hq, heq⟩, ?_⟩
      simpa [rank, he] using hi
    | some e' =>
      rw [filterMap_cons, he] at hx
      cases x with
      | zero =>
        cases hx
        exact ⟨0, ⟨p, rfl, he⟩, rfl⟩
      | succ x =>
        obtain ⟨i, ⟨q, hq, heq⟩, hi⟩ := ih hx
        refine ⟨i + 1, ⟨q, hq, heq⟩, ?_⟩
        simpa [rank, he] using hi

theorem rank_length : rank code? ps ps.length = (ps.filterMap code?).length := by
  rw [rank, take_length]

theorem covers_rank_iff {range : ExceptionRange} (hi : Stands code? ps i e) :
    Covers some (ps.filterMap code?) range (rank code? ps i) ↔ Covers code? ps range i := by
  constructor
  · rintro ⟨x, y, hx, hy, hxi, hiy⟩
    obtain ⟨a, ha, rfl⟩ := exists_stands hx
    obtain ⟨c, hc, rfl⟩ := exists_stands hy
    refine ⟨a, c, ha, hc, ?_, ?_⟩
    · rcases Nat.lt_or_ge a i with hlt | hge
      · exact hlt
      · exact absurd (rank_le code? ps hge) (Nat.not_le.mpr hxi)
    · rcases Nat.lt_or_ge i c with hlt | hge
      · exact hlt
      · exact absurd (rank_le code? ps hge) (Nat.not_le.mpr hiy)
  · rintro ⟨a, c, ha, hc, hai, hic⟩
    exact ⟨_, _, ha.filterMap, hc.filterMap, ha.rank_lt hai, hi.rank_lt hic⟩

/-- Where the search for the next entry ends: at an entry or behind everything. -/
def AtEntry (code? : α → Option Entry) (ps : List α) (i : Nat) : Prop :=
  i = ps.length ∨ ∃ e, Stands code? ps i e

theorem atEntry_le (h : AtEntry code? ps i) (hle : rank code? ps j ≤ rank code? ps i)
    (hj : j ≤ ps.length) : j ≤ i := by
  rcases h with rfl | ⟨e, h⟩
  · exact hj
  · exact h.le_of_rank hle

/-- No entry stands between positions of the same rank. -/
theorem along_rank {P : Nat → Prop} (hij : i ≤ j) (hj : j ≤ ps.length)
    (hrank : rank code? ps i = rank code? ps j)
    (hskip : ∀ k p, ps[k]? = some p → code? p = none → P k → P (k + 1)) (h : P i) : P j := by
  induction hij with
  | refl => exact h
  | @step j hij ih =>
    have hle := rank_le code? ps hij
    have hle' := rank_le code? ps (Nat.le_succ j)
    have hlt : j < ps.length := hj
    have hp := getElem?_eq_getElem hlt
    have hbefore : P j := ih (Nat.le_of_lt hlt) (by omega)
    cases he : code? ps[j] with
    | none => exact hskip j _ hp he hbefore
    | some e =>
      have hsucc := Stands.rank_succ ⟨_, hp, he⟩
      simp only [Nat.succ_eq_add_one] at hrank hle'
      omega

theorem Edge.with_ranges (h : Edge code? ps [] i j) : Edge code? ps ranges i j := by
  cases h with
  | skip hp he => exact .skip hp he
  | next hi hfalls => exact .next hi hfalls
  | jump hi ht hj => exact .jump hi ht hj
  | throw _ _ hr => cases hr

theorem Reach.advance (h : Reach code? ps ranges i) (hij : i ≤ j) (hj : j ≤ ps.length)
    (hrank : rank code? ps i = rank code? ps j) : Reach code? ps ranges j :=
  along_rank hij hj hrank (fun _ _ hp he h => .step h (.skip hp he)) h

theorem Reach.rank (h : Reach code? ps ranges i) :
    Reach some (ps.filterMap code?) ranges (rank code? ps i) := by
  induction h with
  | start => exact .start
  | step _ hedge ih =>
    cases hedge with
    | skip hp he => rwa [rank_succ_of_none hp he]
    | next h hfalls =>
      rw [h.rank_succ]
      exact .step ih (.next h.filterMap hfalls)
    | jump h ht h' => exact .step ih (.jump h.filterMap ht h'.filterMap)
    | throw h hlabel hr hcovers h' =>
      exact .step ih (.throw h.filterMap hlabel hr ((covers_rank_iff h).mpr hcovers) h'.filterMap)

theorem reach_of_rank (hat : AtEntry code? ps i) (hi : i ≤ ps.length)
    (h : Reach some (ps.filterMap code?) ranges (rank code? ps i)) : Reach code? ps ranges i := by
  generalize hx : ClassAssembler.rank code? ps i = x at h
  induction h generalizing i with
  | start => exact Reach.start.advance (Nat.zero_le _) hi (by rw [hx]; rfl)
  | @step x y h hedge ih =>
    -- The entry that stands at a rank, if there is one.
    have hsame : ∀ {l : Label}, Stands some (ps.filterMap code?) y (.label l) →
        Stands code? ps i (.label l) := by
      intro l hl
      obtain ⟨j, hj, hrank⟩ := exists_stands hl
      have hji := atEntry_le hat (Nat.le_of_eq (hrank.trans hx.symm)) (Nat.le_of_lt hj.lt_length)
      have hij := hj.le_of_rank (Nat.le_of_eq (hx.trans hrank.symm))
      cases Nat.le_antisymm hij hji
      exact hj
    cases hedge with
    | skip _ he => cases he
    | next h hfalls =>
      obtain ⟨k, hk, hrank⟩ := exists_stands h
      have hreach := Reach.step (ih (.inr ⟨_, hk⟩) (Nat.le_of_lt hk.lt_length) hrank)
        (.next hk hfalls)
      have heq : rank code? ps (k + 1) = rank code? ps i := by rw [hk.rank_succ, hrank, hx]
      exact hreach.advance (atEntry_le hat (Nat.le_of_eq heq) hk.lt_length) hi heq
    | jump h ht h' =>
      obtain ⟨k, hk, hrank⟩ := exists_stands h
      exact .step (ih (.inr ⟨_, hk⟩) (Nat.le_of_lt hk.lt_length) hrank) (.jump hk ht (hsame h'))
    | throw h hlabel hr hcovers h' =>
      obtain ⟨k, hk, hrank⟩ := exists_stands h
      rw [← hrank] at hcovers
      exact .step (ih (.inr ⟨_, hk⟩) (Nat.le_of_lt hk.lt_length) hrank)
        (.throw hk hlabel hr ((covers_rank_iff hk).mp hcovers) (hsame h'))

theorem reach_rank_iff (hat : AtEntry code? ps i) (hi : i ≤ ps.length) :
    Reach some (ps.filterMap code?) ranges (rank code? ps i) ↔ Reach code? ps ranges i :=
  ⟨reach_of_rank hat hi, Reach.rank⟩

end paths
end ClassAssembler
