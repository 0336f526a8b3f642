import ClassAssembler.Proofs.Control.Following

/-!
# Branches go by answers

A script that decides something comes to its branch with the next answer of the oracle on the
stack.
-/

namespace ClassAssembler

open Script
namespace Stage

open Machine Conduct

variable {A : Stage} {n k : Nat} {c : Course} {t : Tape}

theorem leads_decides {lead rest : Plot} (hlead : A.Passes lead)
    (hlies : Lies A.lines k (deciding lead rest n).lines) (ht : t.At c) :
    ∃ t' : Tape, t'.At { c with asked := c.asked + 1 } ∧ t'.answer = A.oracle c.asked ∧
      t'.top = none ∧ t'.text = none ∧ A.Leads (.running k t)
        (.running (k + ((lift lead ++ mark .decides) n).lines.length)
          { t' with top := some (A.oracle c.asked).number }) := by
  obtain ⟨t1, halike, hleads⟩ := hlead n k t hlies.left.left
  obtain ⟨hcourse, hending⟩ := halike.at ht
  subst hcourse
  have hend : k + ((lift lead ++ mark .decides) n).lines.length =
      k + (lead n).points.length + 1 := by
    show k + ((lead n).points.map Line.item ++ [_]).length = _
    rw [List.length_append, List.length_map, Nat.add_assoc]
    rfl
  have hmark := hlies.left.right
  change Lies A.lines (k + ((lead n).points.map Line.item).length) [.mark .decides] at hmark
  rw [List.length_map] at hmark
  refine ⟨{ t1 with asked := t1.asked + 1, answer := A.oracle t1.asked, top := none, text := none },
    ⟨rfl, hending⟩, rfl, rfl, rfl, ?_⟩
  rw [hend]
  exact hleads.trans (leads_mark hmark)

theorem leads_jumpIf {lead : Plot} {site : Site} {ord : OrdTest} {l : Label} (hlead : A.Passes lead)
    (hlies : Lies A.lines k
      (deciding lead (Plot.branch site (.jumpIf (.zero ord) l)) n).lines) (ht : t.At c) :
    ∃ t', Tape.At t' { c with asked := c.asked + 1 } ∧
      (ord.holds (A.oracle c.asked).number = true →
        A.Leads (.running k t) (A.machine.goTo A.lines l t')) ∧
      (ord.holds (A.oracle c.asked).number = false → A.Leads (.running k t) (.running
        (k + (deciding lead (Plot.branch site (.jumpIf (.zero ord) l)) n).lines.length) t')) := by
  obtain ⟨t', ht', _, htop, _, hleads⟩ := leads_decides hlead hlies ht
  have hbranch := hlies.right
  have hact := (branches (A := A) htop).jumpIf ord l (A.oracle c.asked).number
  refine ⟨t', ht', fun hholds => ?_, fun hholds => ?_⟩
  · rw [if_pos hholds] at hact
    exact hleads.trans (.goTo (hbranch.stands rfl) hact)
  · rw [if_neg (Bool.eq_false_iff.mp hholds)] at hact
    have hend : (deciding lead (Plot.branch site (.jumpIf (.zero ord) l)) n).lines.length =
        ((lift lead ++ mark .decides) n).lines.length + 1 := List.length_append
    rw [hend, ← Nat.add_assoc]
    exact hleads.trans (.next (hbranch.stands rfl) hact)

theorem leads_choose {lead : Plot} {site : Site} {br : Branch} {l : Label} (hlead : A.Passes lead)
    (hlies : Lies A.lines k (deciding lead (Plot.branch site br) n).lines) (ht : t.At c)
    (hselect : br.select (A.oracle c.asked).number = some l) :
    ∃ t', Tape.At t' { c with asked := c.asked + 1 } ∧
      ∀ j, find? A.machine.code? A.lines l = some j → A.Leads (.running k t) (.running j t') := by
  obtain ⟨t', ht', _, htop, _, hleads⟩ := leads_decides hlead hlies ht
  have hact := (branches (A := A) htop).choose br (A.oracle c.asked).number l hselect
  exact ⟨t', ht', fun j hj => hleads.trans (.jump (hlies.right.stands rfl) hact hj)⟩

theorem compares_answer {homes : Array Home} {site : Site} {selector : Operand}
    (htop : t.top = none) (htext : t.text = none) :
    Compares A.body homes site selector t.answer.text A.machine .item t
      fun n => { t with top := some n } where
  embeds := embeds
  branches := branches htop
  equals text := by
    intro n
    obtain ⟨top, pushed, hload⟩ := A.runs_plain (Plot.idle_load site selector n).2.2 t
    rw [Plot.map_append, Plot.map_append]
    refine (hload.append (.act rfl rfl .nil)).append (.act rfl ?_ .nil)
    show Effect.next (Tape.insn (.invoke .virtual .stringEquals)
      { t with top := top, text := some (Text.units text) }) = _
    rw [Tape.insn, if_neg (by decide), if_pos rfl]
    simp only [Option.some.injEq, htext]

theorem leads_dispatch {homes : Array Home} {site : Site} {kept : List Nat} {S : SwitchStatement}
    (hnodup : (S.arms.flatMap Arm.keys).Nodup)
    (hlies : Lies A.lines k (dispatch A.body homes site kept S n).lines) (ht : t.At c) :
    ∃ t', Tape.At t' { c with asked := c.asked + 1 } ∧ ∀ j, find? A.machine.code? A.lines
      (A.body.arrival S (S.arm? (S.subject (A.oracle c.asked)))) = some j →
        A.Leads (.running k t) (.running j t') := by
  unfold dispatch at hlies
  unfold SwitchStatement.subject
  cases hkind : S.kind with
  | int =>
    rw [hkind] at hlies
    exact leads_choose (.idle (Plot.idle_load site S.selector)) hlies ht
      (Lay.select_arm CaseKey.int?_eq_some_iff hnodup false _)
  | enum type accessor =>
    rw [hkind] at hlies
    exact leads_choose
      (.idle ((((Plot.idle_insn site _).append (Plot.idle_load site S.selector)).append
      (Plot.idle_insn site _)).append (Plot.idle_insn site _))) hlies ht
      (Lay.select_arm CaseKey.index?_eq_some_iff hnodup true _)
  | string =>
    rw [hkind] at hlies
    dsimp only at hlies ⊢
    obtain ⟨ls, m, hls, heq⟩ := freshFor_apply (Lay.buckets A.body S.arms) _ n
    rw [heq] at hlies
    obtain ⟨t', ht', hanswer, htop, htext, hleads⟩ :=
      leads_decides (.idle (Plot.idle_load site S.selector)) hlies ht
    refine ⟨t', ht', fun j hj => hleads.trans ?_⟩
    rw [← hanswer, Body.arrival_arm?] at hj
    refine goes_buckets (compares_answer htop htext) A.distinct hnodup hls
      (fun _ => .act rfl ?_ .nil) _ _ hlies.right j hj
    show Effect.next (Tape.insn (.invoke .virtual .stringHashCode) _) = _
    rw [Tape.insn, if_pos rfl, Text.unitsHash_eq]

end Stage
end ClassAssembler
