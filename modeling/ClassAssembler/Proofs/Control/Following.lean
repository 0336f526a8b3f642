import ClassAssembler.Proofs.Control.Tape

/-!
# Scripts follow what bodies do

Wherever a script stands among some lines, running it from its start leads where the part of the
body does that it was made for: behind the script, to the end of a scope that is left, to the next
pass of a loop, or out of the method.
-/

namespace ClassAssembler

variable {b : Body} {n scope : Nat} {status : Status}

open List Machine Conduct

structure Tape.At (t : Tape) (c : Course) : Prop where
  course : t.toCourse = c
  ending : t.ending = .completes

theorem Tape.Alike.at {t t' : Tape} {c : Course} (h : t.Alike t') (ht : t.At c) : t'.At c :=
  ⟨h.course.trans ht.course, h.ending.trans ht.ending⟩

theorem Script.lines_enclosed {inner : Inner} :
    (enclosed b inner scope status n).lines = .item (.label (Lay.entryOf b scope) (some status)) ::
      ((inner scope status n).lines ++
        [.item (.label (Lay.exitOf b scope) (some ⟨[], status.kept⟩))]) := rfl

theorem Script.length_enclosed {inner : Inner} :
    (enclosed b inner scope status n).lines.length = 1 + (inner scope status n).lines.length
      + 1 := by
  rw [lines_enclosed, length_cons, length_append, length_singleton]
  omega

structure Stage where
  body : Body
  oracle : Oracle
  chance : Nat → Bool
  passes : Nat
  lines : List (Line Point)
  distinct : Distinct (Tape.machine oracle chance Point.code?).code? lines

namespace Stage

section leads

variable (A : Stage)

abbrev machine : Machine (Line Point) Tape := Tape.machine A.oracle A.chance Point.code?

abbrev Leads (c c' : Config Tape) : Prop := A.machine.Leads A.lines c c'

/-- Where a run comes to, for what a part of a body does. -/
inductive Lands (least : Nat) (c0 : Config Tape) (stop : Nat) : Course × Signal → Prop
  | falls {c : Course} {t : Tape} : t.At c → A.Leads c0 (.running stop t) →
      Lands least c0 stop (c, .falls)
  | leaves {c : Course} {t : Tape} {target : Nat} : t.At c →
      A.Leads c0 (A.machine.goTo A.lines (Lay.exitOf A.body target) t) →
      Lands least c0 stop (c, .leaves target)
  | repeats {c : Course} {t : Tape} {target : Nat} : t.At c →
      A.Leads c0 (A.machine.goTo A.lines (Lay.againOf A.body target) t) →
      Lands least c0 stop (c, .repeats target)
  | ends {c : Course} {t : Tape} {scope index : Nat} : t.toCourse = c →
      t.ending = .exits scope index → A.Leads c0 (.halted t) →
      Lands least c0 stop (c, .ends scope index)
  | spent {c : Course} {t : Tape} {n i : Nat} : least ≤ n → t.At c →
      A.machine.run A.lines n c0 = .running i t → Lands least c0 stop (c, .spent)

/-- Running a script leads where a part of a body does. -/
def Follows (m : Conduct) (s : Script) : Prop :=
  ∀ n k c t, Lies A.lines k (s n).lines → t.At c →
    A.Lands A.passes (.running k t) (k + (s n).lines.length) (m c)

def Passes (p : Plot) : Prop :=
  ∀ n k t, Lies A.lines k ((p n).points.map .item) →
    ∃ t', t.Alike t' ∧ A.Leads (.running k t) (.running (k + (p n).points.length) t')

end leads

variable {A : Stage} {least least' stop stop' k : Nat} {c0 c1 : Config Tape} {r : Course × Signal}
  {t : Tape}

namespace Lands

theorem of_run (h : A.Lands least c1 stop r) (hn : A.machine.run A.lines n c0 = c1) :
    A.Lands (n + least) c0 stop r := by
  have hleads : A.Leads c0 c1 := ⟨n, hn⟩
  cases h with
  | falls ht h => exact .falls ht (hleads.trans h)
  | leaves ht h => exact .leaves ht (hleads.trans h)
  | repeats ht h => exact .repeats ht (hleads.trans h)
  | ends hc he h => exact .ends hc he (hleads.trans h)
  | spent hle ht hrun => exact .spent (Nat.add_le_add_left hle n) ht (by rw [run_add, hn, hrun])

theorem mono (h : A.Lands least c0 stop r) (hle : least' ≤ least) : A.Lands least' c0 stop r := by
  cases h with
  | falls ht h => exact .falls ht h
  | leaves ht h => exact .leaves ht h
  | repeats ht h => exact .repeats ht h
  | ends hc he h => exact .ends hc he h
  | spent hn ht hrun => exact .spent (Nat.le_trans hle hn) ht hrun

theorem of_leads (h : A.Lands least c1 stop r) (hleads : A.Leads c0 c1) :
    A.Lands least c0 stop r := by
  obtain ⟨n, hn⟩ := hleads
  exact (h.of_run hn).mono (Nat.le_add_left ..)

section

variable (h : A.Lands least c0 stop r)
include h

theorem elsewhere (hr : r.2 ≠ .falls) : A.Lands least c0 stop' r := by
  cases h with
  | falls => exact absurd rfl hr
  | leaves ht h => exact .leaves ht h
  | repeats ht h => exact .repeats ht h
  | ends hc he h => exact .ends hc he h
  | spent hn ht hrun => exact .spent hn ht hrun

theorem exists_falls (hr : r.2 = .falls) : ∃ t, t.At r.1 ∧ A.Leads c0 (.running stop t) := by
  cases h with
  | falls ht h => exact ⟨_, ht, h⟩
  | _ => cases hr

theorem exists_leaves {target : Nat} (hr : r.2 = .leaves target) :
    ∃ t, t.At r.1 ∧ A.Leads c0 (A.machine.goTo A.lines (Lay.exitOf A.body target) t) := by
  cases h with
  | leaves ht h =>
    cases hr
    exact ⟨_, ht, h⟩
  | _ => cases hr

theorem exists_repeats {target : Nat} (hr : r.2 = .repeats target) :
    ∃ t, t.At r.1 ∧ A.Leads c0 (A.machine.goTo A.lines (Lay.againOf A.body target) t) := by
  cases h with
  | repeats ht h =>
    cases hr
    exact ⟨_, ht, h⟩
  | _ => cases hr

end

theorem andThen {m m' : Conduct} {c : Course} (h : A.Lands least c0 stop (m c))
    (h' : ∀ t, t.At (m c).1 → A.Lands least (.running stop t) stop' (m' (m c).1)) :
    A.Lands least c0 stop' (m.andThen m' c) := by
  by_cases hfalls : (m c).2 = .falls
  · rw [andThen_of_falls m' hfalls]
    obtain ⟨t, ht, hleads⟩ := h.exists_falls hfalls
    exact (h' t ht).of_leads hleads
  · rw [andThen_of_ne m' hfalls]
    exact h.elsewhere hfalls

end Lands

section lines

variable {l : Label} {status : Option Status} {ls : List (Line Point)}

section

variable (h : Lies A.lines k (.item (.label l status) :: ls))
include h

theorem leads_label : A.Leads (.running k t) (.running (k + 1) t) :=
  .next (h.stands rfl) rfl

theorem find?_label :
    find? A.machine.code? A.lines l = some k := A.distinct.find? (h.stands rfl)

theorem goTo_label :
    A.machine.goTo A.lines l t = .running k t := goTo_of_find? (find?_label h)

end

theorem leads_goto {site : Option Site}
    (h : Lies A.lines k (.item (.branch (.goto l) site) :: ls)) :
    A.Leads (.running k t) (A.machine.goTo A.lines l t) := .goTo (h.stands rfl) rfl

theorem leads_mark {m : Mark} (h : Lies A.lines k (.mark m :: ls)) :
    A.Leads (.running k t) (.running (k + 1) (t.pass A.oracle (.mark m : Line Point))) :=
  .of_step (step_pass h.head rfl)

end lines

theorem embeds : Plot.Embeds A.machine .item := ⟨fun _ => rfl, fun _ _ _ => rfl⟩

theorem branches (h : t.top = none) : A.machine.Branches t fun n => { t with top := some n } :=
  Tape.branches h

variable (A) in
theorem runs_plain {ps : List Point} (h : ∀ p ∈ ps, p.isPlain) (t : Tape) :
    ∃ top text, A.machine.Runs (ps.map .item) t { t with top := top, text := text } := by
  induction ps generalizing t with
  | nil => exact ⟨_, _, .nil⟩
  | cons p ps ih =>
    have hplain := h p mem_cons_self
    have hrest := ih fun p' hp' => h p' (.tail _ hp')
    cases p with
    | insn i role site =>
      obtain ⟨top, text, heq⟩ := t.insn_eq i
      obtain ⟨top', text', hruns⟩ := hrest { t with top := top, text := text }
      refine ⟨top', text', .act rfl ?_ hruns⟩
      rw [← heq]
      rfl
    | reads v =>
      obtain ⟨top, text, hruns⟩ := hrest t
      exact ⟨top, text, .pass rfl hruns⟩
    | yields v =>
      obtain ⟨top, text, hruns⟩ := hrest t
      exact ⟨top, text, .pass rfl hruns⟩
    | _ => cases hplain

namespace Passes

variable {p q : Plot}

theorem idle (h : Plot.Idle p) : A.Passes p := by
  intro n k t hlies
  obtain ⟨top, text, hruns⟩ := A.runs_plain (h n).2.2 t
  refine ⟨{ t with top := top, text := text }, ⟨rfl, rfl, rfl⟩, ?_⟩
  have hleads := hruns.leads hlies
  rwa [length_map] at hleads

theorem append (hp : A.Passes p) (hq : A.Passes q) : A.Passes (p ++ q) := by
  intro n k t hlies
  rw [Plot.map_append] at hlies
  obtain ⟨t1, halike1, hleads1⟩ := hp n k t hlies.left
  have hright := hlies.right
  rw [length_map] at hright
  obtain ⟨t2, halike2, hleads2⟩ := hq _ _ t1 hright
  refine ⟨t2, halike1.trans halike2, ?_⟩
  rw [Plot.append_apply, length_append, ← Nat.add_assoc]
  exact hleads1.trans hleads2

theorem decision (site : Site) (kept : List Nat) (test : Test) :
    A.Passes (Plot.decision site kept test) := by
  intro n k t hlies
  -- The lines are the jump, what is pushed without it, and what is pushed behind it.
  have hone := hlies.tail
  have hgoto := hone.tail
  have hholds := hgoto.tail
  have htwo := hholds.tail
  have hdone := htwo.tail
  have hend : ∀ t1, A.Leads (.running (k + 5) t1) (.running (k + 6) t1) :=
    fun t1 => leads_label hdone
  obtain ⟨holds, t', halike, hjump⟩ := Tape.exists_jumpWhen A.chance test ⟨n⟩ t
  refine ⟨t', halike, ?_⟩
  cases holds with
  | true =>
    have hleads : A.Leads (.running k t) (.running (k + 3) t') :=
      .jump (hlies.stands rfl) hjump (find?_label hholds)
    exact ((hleads.trans (leads_label hholds)).trans (.next (htwo.stands rfl) rfl)).trans (hend _)
  | false =>
    have hleads : A.Leads (.running k t) (.running (k + 1) t') := .next (hlies.stands rfl) hjump
    refine ((hleads.trans (.next (hone.stands rfl) rfl)).trans ?_).trans (hend _)
    exact .jump (hgoto.stands rfl) rfl (find?_label hdone)

theorem simple {homes : Array Home} (site : Site) (kept : List Nat) (act : Action)
    (operands : List Operand) (result : Option Nat) :
    A.Passes (Plot.simple b homes site kept act operands result) := by
  refine append ?_ (idle (Plot.idle_settle site result))
  by_cases hact : ∃ lead test, act = .compare lead test
  · obtain ⟨lead, test, rfl⟩ := hact
    exact (idle ((Plot.idle_loads site operands).append (Plot.idle_insns site _))).append
      (decision site kept test)
  · exact idle (Plot.idle_action site kept operands fun lead test h => hact ⟨lead, test, h⟩)

end Passes

theorem Lands.within {m : Conduct} {c : Course} {status : Option Status} {ls : List (Line Point)}
    (h : A.Lands least c0 stop (m c))
    (hexit : Lies A.lines stop (.item (.label (Lay.exitOf A.body scope) status) :: ls)) :
    A.Lands least c0 (stop + 1) (Conduct.within scope m c) := by
  by_cases hleaves : (m c).2 = .leaves scope
  · rw [within_of_leaves hleaves]
    obtain ⟨t, ht, hleads⟩ := h.exists_leaves hleaves
    rw [goTo_label hexit] at hleads
    exact .falls ht (hleads.trans (leads_label hexit))
  · rw [within_of_ne hleaves]
    by_cases hfalls : (m c).2 = .falls
    · obtain ⟨t, ht, hleads⟩ := h.exists_falls hfalls
      have heq : m c = ((m c).1, .falls) := Prod.ext rfl hfalls
      rw [heq]
      exact .falls ht (hleads.trans (leads_label hexit))
    · exact h.elsewhere hfalls

theorem Lands.pass {m : Conduct} {c : Course} {status : Option Status} {ls : List (Line Point)}
    (h : A.Lands least c0 stop (m c))
    (hagain : Lies A.lines stop (.item (.label (Lay.againOf A.body scope) status) :: ls)) :
    A.Lands least c0 stop (Conduct.pass scope m c) := by
  by_cases hrepeats : (m c).2 = .repeats scope
  · rw [pass_of_repeats hrepeats]
    obtain ⟨t, ht, hleads⟩ := h.exists_repeats hrepeats
    rw [goTo_label hagain] at hleads
    exact .falls ht hleads
  · rw [pass_of_ne hrepeats]
    exact h

namespace Follows

variable {m m' : Conduct} {s s' : Script}

theorem lift {p : Plot} (h : A.Passes p) : A.Follows (gives .falls) (.lift p) := by
  intro n k c t hlies ht
  obtain ⟨t', halike, hleads⟩ := h n k t hlies
  refine .falls (halike.at ht) ?_
  show A.Leads _ (.running (k + ((p n).points.map Line.item).length) t')
  rwa [length_map]

theorem begins (scope index : Nat) :
    A.Follows (does scope index) (.mark (.begins scope index)) := by
  intro n k c t hlies ht
  have hdone : (t.pass A.oracle (.mark (.begins scope index) : Line Point)).At
      { c with done := c.done ++ [(scope, index)] } := by
    refine ⟨?_, ht.ending⟩
    rw [← ht.course]
    rfl
  exact .falls hdone (leads_mark hlies)

theorem append (h : A.Follows m s) (h' : A.Follows m' s') : A.Follows (m.andThen m') (s ++ s') := by
  intro n k c t hlies ht
  refine (h n k c t hlies.left ht).andThen fun t' ht' => ?_
  have hrest := h' _ _ _ t' hlies.right ht'
  rwa [Nat.add_assoc, ← length_append] at hrest

theorem concat {α : Type} {as : List α} {m : α → Conduct} {s : α → Script}
    (h : ∀ a ∈ as, A.Follows (m a) (s a)) : A.Follows (inTurn (as.map m)) (.concat (as.map s)) := by
  induction as with
  | nil => exact fun _ _ _ _ _ ht => .falls ht (.refl _)
  | cons a as ih =>
    exact (h a mem_cons_self).append (ih fun a' ha' => h a' (.tail _ ha'))

theorem enclosed {inner : Script.Inner} (h : A.Follows m (inner scope status)) :
    A.Follows (Conduct.within scope m) (.enclosed A.body inner scope status) := by
  intro n k c t hlies ht
  rw [Script.length_enclosed, ← Nat.add_assoc, ← Nat.add_assoc]
  rw [Script.lines_enclosed] at hlies
  have hrun := (h n (k + 1) c t hlies.tail.left ht).of_leads (leads_label hlies)
  exact hrun.within hlies.tail.right

end Follows

end Stage
end ClassAssembler
