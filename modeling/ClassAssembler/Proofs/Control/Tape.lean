import ClassAssembler.Proofs.Control.Course
import ClassAssembler.Proofs.Control.Script
import ClassAssembler.Proofs.Switch.StringSwitch

/-!
# Running code with an oracle

Code is run here without values.
-/

namespace ClassAssembler

def Line.code? {α : Type} (code? : α → Option Entry) (line : Line α) : Option Entry :=
  line.item?.bind code?

structure Tape extends Course where
  answer : Answer
  /-- The number on top of the stack, if it comes from an answer. -/
  top : Option Int32
  /-- The units of the text that is to be compared with the answer. -/
  text : Option (List Nat)
  chances : Nat
  ending : Ending

namespace Tape

def start : Tape := ⟨⟨[], 0⟩, ⟨0, []⟩, none, none, 0, .completes⟩

section machine

variable (oracle : Oracle) (chance : Nat → Bool)

def pass {α : Type} : Line α → Tape → Tape
  | .mark (.begins scope index), t => { t with done := t.done ++ [(scope, index)], top := none }
  | .mark .decides, t =>
      { t with asked := t.asked + 1, answer := oracle t.asked, top := some (oracle
        t.asked).number, text := none }
  | .mark (.ends scope index), t => { t with ending := .exits scope index }
  | .item _, t => t

def insn (i : Instruction) (t : Tape) : Tape :=
  match i with
  | .ldc (.string text) => { t with text := some (Text.units text) }
  | .invoke .virtual method =>
      if method = .stringHashCode then
        { t with top := some (Int32.ofNat (Text.polynomial t.answer.text)) }
      else if method = .stringEquals then
        { t with top := some (if some t.answer.text = t.text then 1 else 0), text := none }
      else t
  | _ => t

def jumpWhen (holds : Bool) (l : Label) (t : Tape) : Effect Tape :=
  if holds then .jump l t else .next t

def jumpIf (test : Test) (l : Label) (t : Tape) : Effect Tape :=
  match test, t.top with
  | .zero ord, some n => jumpWhen (ord.holds n) l { t with top := none }
  | _, _ => jumpWhen (chance t.chances) l { t with chances := t.chances + 1 }

def choose (br : Branch) (t : Tape) : Effect Tape :=
  match t.top.bind br.select with
  | some l => .jump l { t with top := none }
  | none => .stuck

def branch (br : Branch) (t : Tape) : Effect Tape :=
  match br with
  | .goto l => .jump l t
  | .jumpIf test l => jumpIf chance test l t
  | .ret _ | .throw => .halt t
  | br => choose br t

def act (e : Entry) (t : Tape) : Effect Tape :=
  match e with
  | .label _ => .next t
  | .insn i => .next (t.insn i)
  | .branch br => branch chance br t

def machine {α : Type} (code? : α → Option Entry) : Machine (Line α) Tape where
  code? := Line.code? code?
  pass := pass oracle
  act := act chance
  handler? _ _ := none

end machine

variable {oracle : Oracle} {chance : Nat → Bool} {t t' : Tape} {l : Label}

/-- Tapes that differ at most in what is on the stack. -/
structure Alike (t t' : Tape) : Prop where
  course : t'.toCourse = t.toCourse
  answer : t'.answer = t.answer
  ending : t'.ending = t.ending

theorem Alike.trans {t'' : Tape} (h : t.Alike t') (h' : t'.Alike t'') : t.Alike t'' :=
  ⟨h'.course.trans h.course, h'.answer.trans h.answer, h'.ending.trans h.ending⟩

theorem insn_eq (i : Instruction) (t : Tape) :
    ∃ top text, t.insn i = { t with top := top, text := text } := by
  unfold insn
  repeat' split
  all_goals exact ⟨_, _, rfl⟩

variable (chance) in
theorem exists_jumpWhen (test : Test) (l : Label) (t : Tape) :
    ∃ holds t', t.Alike t' ∧ jumpIf chance test l t = jumpWhen holds l t' := by
  unfold jumpIf
  split
  · exact ⟨_, { t with top := none }, ⟨rfl, rfl, rfl⟩, rfl⟩
  · exact ⟨_, { t with chances := t.chances + 1 }, ⟨rfl, rfl, rfl⟩, rfl⟩

theorem choose_of_select {br : Branch} {n : Int32} (h : br.select n = some l)
    (htop : t.top = some n) : choose br t = .jump l { t with top := none } := by
  rw [choose, htop, Option.bind_some, h]

theorem choose_cases (br : Branch) (t : Tape) :
    (∃ l ∈ br.targets, choose br t = .jump l { t with top := none }) ∨ choose br t = .stuck := by
  unfold choose
  split
  · next l hl =>
    obtain ⟨n, _, hn⟩ := Option.bind_eq_some_iff.mp hl
    exact .inl ⟨l, Branch.select_mem hn, rfl⟩
  · exact .inr rfl

theorem sensible : Machine.Sensible (act chance) where
  next {e w w'} h := by
    have hchoose : ∀ br, choose br w ≠ .next w' := by
      intro br h
      rcases choose_cases br w with ⟨l, _, heq⟩ | heq
      · rw [heq] at h
        cases h
      · rw [heq] at h
        cases h
    cases e with
    | branch br =>
      cases br with
      | jumpIf test l => rfl
      | tableSwitch fallback low targets => exact absurd h (hchoose _)
      | lookupSwitch fallback targets => exact absurd h (hchoose _)
      | _ => cases h
    | _ => rfl
  jump {e w l w'} h := by
    have hchoose : ∀ br, choose br w = .jump l w' → l ∈ br.targets := by
      intro br h
      rcases choose_cases br w with ⟨l', hl', heq⟩ | heq
      · rw [heq] at h
        cases h
        exact hl'
      · rw [heq] at h
        cases h
    cases e with
    | branch br =>
      cases br with
      | jumpIf test target =>
        obtain ⟨holds, t, _, hjump⟩ := exists_jumpWhen chance test target w
        have hl : jumpWhen holds target t = .jump l w' := hjump ▸ h
        cases holds <;> cases hl
        exact .head _
      | goto target =>
        cases h
        exact .head _
      | tableSwitch fallback low targets => exact hchoose _ h
      | lookupSwitch fallback targets => exact hchoose _ h
      | _ => cases h
    | _ => cases h

theorem branches {α : Type} {code? : α → Option Entry} (h : t.top = none) :
    (machine oracle chance code?).Branches t fun n => { t with top := some n } where
  label _ := rfl
  goto _ := rfl
  jumpIf ord l n := by
    show jumpWhen _ _ { t with top := none } = _
    rw [← h]
    rfl
  choose br n l hl := by
    have hchoose : Tape.choose br { t with top := some n } = .jump l t := by
      rw [choose_of_select hl rfl, ← h]
    cases br with
    | tableSwitch fallback low targets => exact hchoose
    | lookupSwitch fallback targets => exact hchoose
    | _ => cases hl

end Tape
end ClassAssembler
