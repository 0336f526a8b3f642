import ClassAssembler.Proofs.Code.Calls

/-!
# Placing a label again

A recorder refuses a label that is placed already, but it notes the new position.
-/

namespace ClassAssembler

open Record
namespace Recorder

/-- Two recorders differ in nothing but the positions of labels outside of `known`. -/
inductive Alike (known : Label → Prop) (r : Recorder) : Recorder → Prop where
  | mk (placed : Std.HashMap Label Nat) (keys : ∀ l, placed.contains l = r.placed.contains l)
      (positions : ∀ l, known l → placed[l]? = r.placed[l]?) : Alike known r { r with placed }

variable {known : Label → Prop} {r r' : Recorder}

theorem along_modify {f : Recorder → Recorder} (hplaced : ∀ r, (f r).placed = r.placed)
    (hf : ∀ r placed, f { r with placed } = { f r with placed }) :
    Along (Alike known) (modify f : Record Unit) := by
  rintro r _ ⟨placed, hkeys, hpositions⟩
  rw [← hplaced r] at hkeys hpositions
  exact ⟨f r, _, .mk placed hkeys hpositions, .inl ⟨(), rfl, congrArg _ (hf r placed)⟩⟩

theorem along_freshLabel : Along (Alike known) freshLabel := by
  rintro r _ ⟨placed, hkeys, hpositions⟩
  exact ⟨{ r with nextLabel := r.nextLabel + 1 }, _, .mk placed hkeys hpositions,
    .inl ⟨_, rfl, rfl⟩⟩

theorem along_place (label : Label) : Along (Alike known) (place label) := by
  rintro r _ ⟨placed, hkeys, hpositions⟩
  have hkeys' : ∀ l, (placed.insert label r.position).contains l =
      (r.placed.insert label r.position).contains l := by
    intro l
    rw [Std.HashMap.contains_insert, Std.HashMap.contains_insert, hkeys]
  have hpositions' : ∀ l, known l → (placed.insert label r.position)[l]? =
      (r.placed.insert label r.position)[l]? := by
    intro l hl
    rw [Std.HashMap.getElem?_insert, Std.HashMap.getElem?_insert, hpositions l hl]
  unfold place
  dsimp only
  rw [hkeys label]
  split
  · exact ⟨_, _, .mk _ hkeys' hpositions', .inr ⟨_, rfl, rfl⟩⟩
  · exact ⟨_, _, .mk _ hkeys' hpositions', .inl ⟨_, rfl, rfl⟩⟩

theorem lasting_alike : Lasting (Alike known) where
  freshLabel := along_freshLabel
  insn i := by
    refine along_modify (fun r => ?_) fun r placed => ?_ <;> unfold Recorder.insn <;> split <;> rfl
  branch b := by
    refine along_modify (fun r => ?_) fun r placed => ?_ <;> unfold Recorder.branch <;>
      split <;> rfl
  place := along_place
  reference _ := along_modify (fun _ => rfl) fun _ _ => rfl
  range _ := along_modify (fun _ => rfl) fun _ _ => rfl

theorem Alike.observed (h : Alike known r r') : r'.entries = r.entries ∧
    r'.position = r.position ∧ r'.reachable = r.reachable ∧ r'.finish = r.finish ∧
    ∀ l, known l → r'.labelPosition? l = r.labelPosition? l := by
  obtain ⟨placed, hkeys, hpositions⟩ := h
  have hunplaced : unplaced { r with placed } = r.unplaced := by
    simp only [unplaced, hkeys]
  exact ⟨rfl, rfl, rfl, by simp only [finish, hunplaced], hpositions⟩

/-- A label that is placed already is refused. Whatever calls come behind, they record the same
as without it, and labels keep their positions: all but that label, which keeps its own if nothing
was recorded since it was placed. -/
theorem placed_again (r : Recorder) {label : Label} (h : (r.labelPosition? label).isSome = true) :
    ∃ r', place label r = .error (.duplicateLabel label) r' ∧
      ∀ calls, (r'.afterCalls calls).entries = (r.afterCalls calls).entries ∧
        (r'.afterCalls calls).position = (r.afterCalls calls).position ∧
        (r'.afterCalls calls).reachable = (r.afterCalls calls).reachable ∧
        (r'.afterCalls calls).finish = (r.afterCalls calls).finish ∧
        ∀ l, (l = label → r.labelPosition? label = some r.position) →
          (r'.afterCalls calls).labelPosition? l = (r.afterCalls calls).labelPosition? l := by
  have hknown : r.placed.contains label = true := by
    rwa [labelPosition?, ← Std.HashMap.contains_eq_isSome_getElem?] at h
  have halike : Alike (fun l => l = label → r.labelPosition? label = some r.position) r
      { r with placed := r.placed.insert label r.position } := by
    refine .mk _ (fun l => ?_) fun l hl => ?_
    · rw [Std.HashMap.contains_insert]
      by_cases heq : label = l
      · rw [← heq, hknown, Bool.or_true]
      · rw [beq_false_of_ne heq, Bool.false_or]
    · rw [Std.HashMap.getElem?_insert]
      split
      · next heq =>
        cases eq_of_beq heq
        exact (hl rfl).symm
      · rfl
  exact ⟨_, by rw [place, hknown]; rfl, fun calls =>
    (lasting_alike.afterCalls halike calls).observed⟩

/-- A label that is placed twice at the same position, and then an instruction. -/
theorem placed_again_start : ∃ r', place ⟨0⟩ ((start 1 0).afterCalls [.place ⟨0⟩]) =
      .error (.duplicateLabel ⟨0⟩) r' ∧
    (r'.afterCalls [.insn .nop]).entries =
      (((start 1 0).afterCalls [.place ⟨0⟩]).afterCalls [.insn .nop]).entries ∧
    (r'.afterCalls [.insn .nop]).labelPosition? ⟨0⟩ =
      (((start 1 0).afterCalls [.place ⟨0⟩]).afterCalls [.insn .nop]).labelPosition? ⟨0⟩ := by
  have hplaced : ((start 1 0).afterCalls [.place ⟨0⟩]).labelPosition? ⟨0⟩ = some 0 := by
    simp [afterCalls, behind, Call.record, place, start, labelPosition?]
  have hposition : ((start 1 0).afterCalls [.place ⟨0⟩]).position = 0 := by
    simp [afterCalls, behind, Call.record, place, start]
  obtain ⟨r', hrefused, hsame⟩ := placed_again ((start 1 0).afterCalls [.place ⟨0⟩])
    (by rw [hplaced]; rfl)
  obtain ⟨hentries, _, _, _, hlabels⟩ := hsame [.insn .nop]
  exact ⟨r', hrefused, hentries, hlabels ⟨0⟩ fun _ => by rw [hplaced, hposition]⟩

/-- A label that is placed again behind an instruction moves there. -/
theorem placed_label_moves :
    ((start 1 0).afterCalls [.place ⟨0⟩, .insn .nop]).labelPosition? ⟨0⟩ = some 0 ∧
    ∃ r', place ⟨0⟩ ((start 1 0).afterCalls [.place ⟨0⟩, .insn .nop]) =
      .error (.duplicateLabel ⟨0⟩) r' ∧ r'.labelPosition? ⟨0⟩ = some 1 := by
  constructor <;>
    simp [afterCalls, behind, Call.record, place, start, labelPosition?, record_insn,
      Recorder.insn]

end Recorder
end ClassAssembler
