import ClassAssembler.Body.Layout
import ClassAssembler.Proofs.Body.Tree
import ClassAssembler.Proofs.Listing.Replay

/-!
# Calls of a recorder

Whatever calls are made of a recorder, in whatever order and whether or not they fail, the labels
it has noted are those that its entries and ranges place and use, it has counted every slot, and
once it holds the next entry for unreachable there is none that control could reach behind the
last instruction.
-/

namespace ClassAssembler

open List Record Recorder

namespace Recorder

/-- The calls that record code: the plain ones, then the typed shorthands. -/
inductive Call where
  | freshLabel
  | insn (i : Instruction)
  | branch (b : Branch)
  | place (label : Label)
  | reference (label : Label)
  | range (exceptions : ExceptionRange)
  | literal (value : Literal)
  | load (type : FieldType) (slot : UInt16)
  | store (type : FieldType) (slot : UInt16)
  | drop (type : FieldType)
  | returning (returns : Option FieldType)
  | condition (test : Test)
  | invoke (kind : InvokeKind) (method : MethodRef)

def Call.record : Call → Record Unit
  | freshLabel => discard Record.freshLabel
  | insn i => Record.insn i
  | branch b => Record.branch b
  | place label => Record.place label
  | reference label => modify (·.reference label)
  | range exceptions => modify (·.range exceptions)
  | literal value => (Lay.literal value).forM Record.insn
  | load type slot => Record.insn (type.load slot)
  | store type slot => Record.insn (type.store slot)
  | drop type => Record.insn type.drop
  | returning returns => Record.branch (.returning returns)
  | condition test => do
      let holds ← Record.freshLabel
      let done ← Record.freshLabel
      Record.entries (test.entries holds done)
  | invoke kind method => Record.insn (.invoke kind method)

def behind {α : Type} (m : Record α) (r : Recorder) : Recorder :=
  match m r with
  | .ok _ r => r
  | .error _ r => r

/-- The recorder after some calls. A call that fails is left at that. -/
def afterCalls (r : Recorder) (calls : List Call) : Recorder :=
  calls.foldl (fun r call => behind call.record r) r

/-- Control may pass an entry: it is an instruction that may go on, or a label that a branch among
the entries goes to. -/
def Passes (entries : List Entry) : Entry → Prop
  | .label l => ∃ b, .branch b ∈ entries ∧ l ∈ b.targets
  | e => e.fallsThrough = true

structure Notes (params : Nat) (r : Recorder) : Prop where
  placed : ∀ l, r.placed.contains l = true ↔ l ∈ r.entries.toList.filterMap Entry.label?
  once : (r.entries.toList.filterMap Entry.label?).Nodup
  targets : ∀ e ∈ r.entries.toList, ∀ t ∈ e.targets, r.referenced.contains t = true
  handlers : ∀ range ∈ r.ranges.toList, r.referenced.contains range.handler = true
  params_le : params ≤ r.maxLocals
  access_le : ∀ i slot words, .insn i ∈ r.entries.toList → i.localAccess? = some (slot, words) →
    slot.toNat + words ≤ r.maxLocals
  /-- Where the next entry is unreachable, an instruction stands behind every entry that control
  may pass. -/
  passed : r.reachable = false → ∀ pre e post, r.entries.toList = pre ++ e :: post →
    Passes r.entries.toList e → ∃ e' ∈ post, e'.isLabel = false

variable {params : Nat} {r : Recorder}

theorem notes_start (next params : Nat) : Notes params (start next params) := by
  refine ⟨fun l => ?_, ?_, ?_, ?_, Nat.le_refl _, ?_, ?_⟩ <;> simp [start]

theorem le_maxLocals_insn (r : Recorder) (i : Instruction) :
    r.maxLocals ≤ (r.insn i).maxLocals := by
  unfold insn
  split
  · dsimp only
    split
    · exact Nat.le_max_left _ _
    · exact Nat.le_refl _
  · exact Nat.le_refl _

namespace Notes

variable (h : Notes params r)
include h

theorem insn (i : Instruction) : Notes params (r.insn i) := by
  by_cases hreach : r.reachable
  · have hmax := le_maxLocals_insn r i
    have haccess : ∀ slot words, i.localAccess? = some (slot, words) →
        slot.toNat + words ≤ (r.insn i).maxLocals := by
      intro slot words haccess
      rw [Recorder.insn, if_pos hreach, haccess]
      exact Nat.le_max_right _ _
    rw [Recorder.insn, if_pos hreach] at hmax haccess ⊢
    have hlabels : (r.entries.push (.insn i)).toList.filterMap Entry.label? =
        r.entries.toList.filterMap Entry.label? := by simp [Entry.label?]
    have hmem : ∀ {e}, e ∈ (r.entries.push (.insn i)).toList → e ∈ r.entries.toList ∨ e =
      .insn i := by
      simp
    refine ⟨fun l => ?_, hlabels ▸ h.once, fun e he t ht => ?_, h.handlers,
      Nat.le_trans h.params_le hmax, fun j slot words hj hslot => ?_, fun hdead => ?_⟩
    · rw [hlabels]
      exact h.placed l
    · rcases hmem he with he | rfl
      · exact h.targets e he t ht
      · cases ht
    · rcases hmem hj with hj | heq
      · exact Nat.le_trans (h.access_le j slot words hj hslot) hmax
      · cases heq
        exact haccess slot words hslot
    · rw [hreach] at hdead
      cases hdead
  · rw [Recorder.insn, if_neg hreach]
    exact h

theorem branch (b : Branch) : Notes params (r.branch b) := by
  unfold Recorder.branch
  split
  · have hlabels : (r.entries.push (.branch b)).toList.filterMap Entry.label? =
        r.entries.toList.filterMap Entry.label? := by simp [Entry.label?]
    have hmem : ∀ {e}, e ∈ (r.entries.push (.branch b)).toList →
        e ∈ r.entries.toList ∨ e = .branch b := by simp
    have hnamed : ∀ {t}, r.referenced.contains t = true ∨ t ∈ b.targets →
        (r.referenced.insertMany b.targets).contains t = true := by
      intro t ht
      rw [Std.HashSet.contains_insertMany_list, Bool.or_eq_true, contains_iff_mem]
      exact ht
    refine ⟨fun l => ?_, hlabels ▸ h.once, fun e he t ht => ?_,
      fun range hrange => hnamed (.inl (h.handlers range hrange)), h.params_le,
      fun i slot words hi haccess => ?_, fun hdead pre e post hsplit hpasses => ?_⟩
    · rw [hlabels]
      exact h.placed l
    · rcases hmem he with he | rfl
      · exact hnamed (.inl (h.targets e he t ht))
      · exact hnamed (.inr ht)
    · rcases hmem hi with hi | heq
      · exact h.access_le i slot words hi haccess
      · cases heq
    · rw [Array.toList_push] at hsplit
      rcases split_cons hsplit with ⟨_, rfl, _⟩ | ⟨post', _, rfl⟩ | ⟨_, _, hnil⟩
      · have hpasses : b.fallsThrough = true := hpasses
        rw [show b.fallsThrough = false from hdead] at hpasses
        cases hpasses
      · exact ⟨.branch b, by simp, rfl⟩
      · simp at hnil
  · exact h

theorem reference (l : Label) : Notes params (r.reference l) := by
  have hnamed : ∀ {t}, r.referenced.contains t = true →
      (r.referenced.insert l).contains t = true := fun ht => by
    rw [Std.HashSet.contains_insert, ht, Bool.or_true]
  exact ⟨h.placed, h.once, fun e he t ht => hnamed (h.targets e he t ht),
    fun range hrange => hnamed (h.handlers range hrange), h.params_le, h.access_le, h.passed⟩

theorem range (range : ExceptionRange) : Notes params (r.range range) := by
  have hr := h.reference range.handler
  refine ⟨hr.placed, hr.once, hr.targets, fun range' hrange => ?_, hr.params_le, hr.access_le,
    hr.passed⟩
  have hrange : range' ∈ (r.ranges.push range).toList := hrange
  rw [Array.toList_push] at hrange
  rcases mem_append.mp hrange with hrange | hrange
  · exact hr.handlers range' hrange
  · cases mem_singleton.mp hrange
    exact Std.HashSet.contains_insert_self

theorem freshLabel : Notes params (behind freshLabel r) :=
  ⟨h.placed, h.once, h.targets, h.handlers, h.params_le, h.access_le, h.passed⟩

/-- A label that stands already is refused, and stands where it stood. Another label wakes the
recorder if something goes to it. -/
theorem place (l : Label) : Notes params (behind (place l) r) := by
  have hinsert : ∀ l', (r.placed.insert l r.position).contains l' = true ↔
      r.placed.contains l' = true ∨ l' = l := by
    intro l'
    rw [Std.HashMap.contains_insert, Bool.or_eq_true, beq_iff_eq, or_comm, @eq_comm _ l]
  unfold behind Record.place
  dsimp only
  cases hknown : r.placed.contains l with
  | true =>
    rw [if_pos rfl]
    refine ⟨fun l' => ?_, h.once, h.targets, h.handlers, h.params_le, h.access_le, h.passed⟩
    rw [hinsert, ← h.placed l']
    exact ⟨fun hl => hl.elim id fun heq => heq ▸ hknown, .inl⟩
  | false =>
    rw [if_neg Bool.false_ne_true]
    have hlabels : (r.entries.push (.label l)).toList.filterMap Entry.label? =
        r.entries.toList.filterMap Entry.label? ++ [l] := by simp [Entry.label?]
    have hmem : ∀ {e}, e ∈ (r.entries.push (.label l)).toList →
        e ∈ r.entries.toList ∨ e = .label l := by simp
    refine ⟨fun l' => ?_, ?_, fun e he t ht => ?_, h.handlers, h.params_le,
      fun i slot words hi haccess => ?_, fun hdead pre e post hsplit hpasses => ?_⟩
    · rw [hlabels, mem_append, mem_singleton, ← h.placed l']
      exact hinsert l'
    · rw [hlabels]
      refine nodup_append.mpr ⟨h.once, pairwise_singleton _ l, fun a ha b hb => ?_⟩
      cases mem_singleton.mp hb
      rintro rfl
      rw [(h.placed a).mpr ha] at hknown
      cases hknown
    · rcases hmem he with he | rfl
      · exact h.targets e he t ht
      · cases ht
    · rcases hmem hi with hi | heq
      · exact h.access_le i slot words hi haccess
      · cases heq
    · obtain ⟨hreach, hunnamed⟩ := Bool.or_eq_false_iff.mp hdead
      -- A branch that is recorded was recorded before the label.
      have hbefore : ∀ {e}, Passes (r.entries.push (.label l)).toList e →
          Passes r.entries.toList e := by
        intro e he
        cases e with
        | label l' =>
          obtain ⟨b, hb, ht⟩ := he
          rcases hmem hb with hb | heq
          · exact ⟨b, hb, ht⟩
          · cases heq
        | _ => exact he
      rw [Array.toList_push] at hsplit
      rcases split_cons hsplit with ⟨_, rfl, _⟩ | ⟨post', hold, rfl⟩ | ⟨_, _, hnil⟩
      · obtain ⟨b, hb, ht⟩ := hbefore hpasses
        rw [h.targets _ hb l ht] at hunnamed
        cases hunnamed
      · obtain ⟨e', he', hinsn⟩ := h.passed hreach pre e post' hold (hbefore hpasses)
        exact ⟨e', mem_append_left _ he', hinsn⟩
      · simp at hnil

end Notes

/-- A step goes the same way from recorders that are related, and they stay related. -/
def Along (R : Recorder → Recorder → Prop) {α : Type} (m : Record α) : Prop :=
  ∀ r r', R r r' → ∃ s s', R s s' ∧
    ((∃ a, m r = .ok a s ∧ m r' = .ok a s') ∨ ∃ fault, m r = .error fault s ∧ m r' =
      .error fault s')

variable {R : Recorder → Recorder → Prop}

namespace Along

theorem bind {α β : Type} {m : Record α} {f : α → Record β} (hm : Along R m)
    (hf : ∀ a, Along R (f a)) : Along R (m >>= f) := by
  intro r r' h
  obtain ⟨s, s', hs, ⟨a, hr, hr'⟩ | ⟨fault, hr, hr'⟩⟩ := hm r r' h
  · obtain ⟨t, t', ht, hgoes⟩ := hf a s s' hs
    refine ⟨t, t', ht, ?_⟩
    simpa only [Bind.bind, EStateM.bind, hr, hr'] using hgoes
  · refine ⟨s, s', hs, .inr ⟨fault, ?_⟩⟩
    simp only [Bind.bind, EStateM.bind, hr, hr', and_self]

theorem pure {α : Type} (a : α) : Along R (pure a : Record α) :=
  fun r r' h => ⟨r, r', h, .inl ⟨a, rfl, rfl⟩⟩

theorem forM {α : Type} {as : List α} {f : α → Record Unit} (hf : ∀ a, Along R (f a)) :
    Along R (as.forM f) := by
  induction as with
  | nil => exact .pure ()
  | cons a as ih => exact (hf a).bind fun _ => ih

theorem of_behind {P : Recorder → Prop} {α : Type} {m : Record α}
    (h : ∀ r, P r → P (behind m r)) : Along (fun r r' => r' = r ∧ P r) m := by
  rintro _ r ⟨rfl, hr⟩
  refine ⟨_, _, ⟨rfl, h r hr⟩, ?_⟩
  unfold behind
  cases m r with
  | ok a s => exact .inl ⟨a, rfl, rfl⟩
  | error fault s => exact .inr ⟨fault, rfl, rfl⟩

end Along

structure Lasting (R : Recorder → Recorder → Prop) : Prop where
  freshLabel : Along R freshLabel
  insn : ∀ i, Along R (Record.insn i)
  branch : ∀ b, Along R (Record.branch b)
  place : ∀ l, Along R (place l)
  reference : ∀ l, Along R (modify (·.reference l) : Record Unit)
  range : ∀ exceptions, Along R (modify (·.range exceptions) : Record Unit)

namespace Lasting

theorem call (h : Lasting R) (call : Call) : Along R call.record := by
  have hentry : ∀ e, Along R (entry e) := by
    rintro (l | i | b)
    · exact h.place l
    · exact h.insn i
    · exact h.branch b
  cases call with
  | freshLabel => exact h.freshLabel.bind fun _ => .pure ()
  | insn i => exact h.insn i
  | branch b => exact h.branch b
  | place label => exact h.place label
  | reference label => exact h.reference label
  | range exceptions => exact h.range exceptions
  | literal value => exact .forM h.insn
  | load type slot => exact h.insn _
  | store type slot => exact h.insn _
  | drop type => exact h.insn _
  | returning returns => exact h.branch _
  | condition test => exact h.freshLabel.bind fun _ => h.freshLabel.bind fun _ => .forM hentry
  | invoke kind method => exact h.insn _

theorem afterCalls (h : Lasting R) {r r' : Recorder} (hr : R r r') (calls : List Call) :
    R (r.afterCalls calls) (r'.afterCalls calls) := by
  induction calls generalizing r r' with
  | nil => exact hr
  | cons call calls ih =>
    refine ih ?_
    show R (behind call.record r) (behind call.record r')
    unfold behind
    obtain ⟨s, s', hs, ⟨a, hm, hm'⟩ | ⟨fault, hm, hm'⟩⟩ := h.call call r r' hr
    · rwa [hm, hm']
    · rwa [hm, hm']

end Lasting

theorem notes_afterCalls {r : Recorder} (h : Notes params r) (calls : List Call) :
    Notes params (r.afterCalls calls) := by
  have hlasting : Lasting fun r r' => r' = r ∧ Notes params r :=
    ⟨.of_behind fun _ h => h.freshLabel, fun i => .of_behind fun _ h => h.insn i,
      fun b => .of_behind fun _ h => h.branch b, fun l => .of_behind fun _ h => h.place l,
      fun l => .of_behind fun _ h => h.reference l, fun e => .of_behind fun _ h => h.range e⟩
  exact (hlasting.afterCalls ⟨rfl, h⟩ calls).2

theorem mem_unplaced_iff {r : Recorder} {l : Label} :
    l ∈ r.unplaced ↔ (r.referenced.contains l = true ∨
      ∃ range ∈ r.ranges.toList, l = range.start ∨ l = range.stop) ∧ r.placed.contains l =
        false := by
  unfold unplaced
  dsimp only
  rw [mem_eraseDups, mem_mergeSort, mem_filter, mem_append,
    Std.HashSet.mem_toList, mem_flatMap, Bool.not_eq_true']
  simp only [mem_cons, not_mem_nil, or_false, Std.HashSet.mem_iff_contains]

/-- Code is finished if and only if its end cannot be reached, the labels it needs are placed, and
there are not too many slots. -/
theorem finish_eq_ok_iff {r : Recorder} {code : Code} :
    r.finish = .ok code ↔ r.reachable = false ∧ r.unplaced = [] ∧ r.maxLocals < UInt16.size ∧
      code = ⟨UInt16.ofNat r.maxLocals, r.entries.toList, r.ranges.toList⟩ := by
  unfold finish
  dsimp only
  constructor
  · intro h
    split at h
    · cases h
    · next hnot =>
      simp only [Bool.or_eq_true, Bool.not_eq_true', not_or, Bool.not_eq_true, Bool.not_eq_false,
        List.isEmpty_iff] at hnot
      split at h
      · next hlt =>
        cases h
        exact ⟨hnot.1, hnot.2, hlt, rfl⟩
      · cases h
  · rintro ⟨hdead, hplaced, hlt, rfl⟩
    rw [hdead, hplaced, if_neg (by simp), if_pos hlt]

theorem Notes.wellPlaced (h : Notes params r) (hplaced : r.unplaced = []) :
    WellPlaced r.entries.toList r.ranges.toList := by
  have hstands : ∀ {l}, (r.referenced.contains l = true ∨
      ∃ range ∈ r.ranges.toList, l = range.start ∨ l = range.stop) →
      l ∈ r.entries.toList.filterMap Entry.label? := by
    intro l hl
    rw [← h.placed l]
    cases hin : r.placed.contains l with
    | true => rfl
    | false =>
      have hmissing := mem_unplaced_iff.mpr ⟨hl, hin⟩
      rw [hplaced] at hmissing
      cases hmissing
  refine ⟨h.once, fun e he l hl => hstands (.inl (h.targets e he l hl)), fun range hr l hl => ?_⟩
  simp only [ExceptionRange.labels, mem_cons, not_mem_nil, or_false] at hl
  rcases hl with rfl | rfl | rfl
  · exact hstands (.inr ⟨range, hr, .inl rfl⟩)
  · exact hstands (.inr ⟨range, hr, .inr rfl⟩)
  · exact hstands (.inl (h.handlers range hr))

end Recorder

open Recorder in
/-- Whatever calls were made of a recorder: code that it finishes can be written into a listing that
has just opened a method, and is listed as it is. It has slots for the parameters and for every
slot it touches, and control cannot run off its end. -/
theorem finished_code_replays (next params : Nat) (calls : List Recorder.Call) {code : Code}
    (h : ((start next params).afterCalls calls).finish = .ok code) :
    (∀ header listing opened, Listing.accept (.openMethod header) listing = .ok () opened →
      ∃ current, listing.openClass = some current ∧
        Listing.acceptAll (code.directives ++ [.closeMethod code.maxLocals]) opened =
          .ok () { listing with openClass := some { current with
            methods := current.methods.push
              ⟨header, code.entries, code.ranges, code.maxLocals⟩ } }) ∧
    params ≤ code.maxLocals.toNat ∧
    (∀ i slot words, .insn i ∈ code.entries → i.localAccess? = some (slot, words) →
      slot.toNat + words ≤ code.maxLocals.toNat) ∧
    ∀ pre e post, code.entries = pre ++ e :: post → Passes code.entries e →
      ∃ e' ∈ post, e'.isLabel = false := by
  have hnotes := notes_afterCalls (notes_start next params) calls
  obtain ⟨hdead, hplaced, hlt, rfl⟩ := finish_eq_ok_iff.mp h
  dsimp only
  rw [UInt16.toNat_ofNat_of_lt' hlt]
  refine ⟨fun header listing opened hopen => ?_, hnotes.params_le, hnotes.access_le,
    hnotes.passed hdead⟩
  obtain ⟨classes, openClass, openMethod⟩ := listing
  cases openMethod with
  | some method => cases hopen
  | none =>
    cases openClass with
    | none => cases hopen
    | some current =>
      cases hopen
      exact ⟨current, rfl, Listing.acceptAll_code (hnotes.wellPlaced hplaced) header current⟩

namespace Recorder

/-- A branch over an early return revives the code behind its label, which is placed a second time
in vain. -/
def revived : List Call :=
  [.load .int 0, .branch (.jumpIf (.zero .ne) ⟨0⟩), .literal (.int 0), .returning (some .int),
    .literal (.int 7), .place ⟨0⟩, .place ⟨0⟩, .literal (.long 1), .store .long 3,
    .literal (.int 1), .returning (some .int)]

theorem record_insn (i : Instruction) (r : Recorder) : Record.insn i r = .ok () (r.insn i) := rfl

theorem record_branch (b : Branch) (r : Recorder) : Record.branch b r = .ok () (r.branch b) := rfl

theorem finish_revived : ∃ code, ((start 1 1).afterCalls revived).finish = .ok code ∧
    code.maxLocals = 5 ∧ code.instructionCount = 8 := by
  have hr : ∃ r, (start 1 1).afterCalls revived = r ∧ r.reachable = false ∧ r.maxLocals = 5 ∧
      r.ranges = #[] ∧ r.entries.toList.countP (!·.isLabel) = 8 ∧
      ∀ l, r.referenced.contains l = true → r.placed.contains l = true := by
    refine ⟨_, rfl, ?_⟩
    simp [afterCalls, revived, behind, Call.record, record_insn, record_branch, place, start,
      insn, branch, Branch.returning, Branch.targets, Branch.fallsThrough, FieldType.load,
        FieldType.store,
      Instruction.localAccess?, Lay.literal, Push.int, Push.long, Push.short?, bind, EStateM.bind,
      pure, EStateM.pure, FieldType.kind, FieldType.int, FieldType.long, Primitive.numKind,
      Kind.words, Entry.isLabel]
  obtain ⟨r, heq, hdead, hmax, hranges, hcount, hplaced⟩ := hr
  rw [heq]
  refine ⟨_, finish_eq_ok_iff.mpr ⟨hdead, ?_, ?_, rfl⟩, ?_, hcount⟩
  · refine eq_nil_iff_forall_not_mem.mpr fun l hl => ?_
    obtain ⟨hneeded | ⟨range, hrange, _⟩, hmissing⟩ := mem_unplaced_iff.mp hl
    · rw [hplaced l hneeded] at hmissing
      cases hmissing
    · rw [hranges] at hrange
      cases hrange
  · rw [hmax]
    decide
  · dsimp only
    rw [hmax]
    rfl

end Recorder

open Recorder in
/-- The revived code, written into a method of an empty class. -/
theorem finished_code_replays_revived : ∃ code,
    ((start 1 1).afterCalls revived).finish = .ok code ∧ code.maxLocals = 5 ∧
    Listing.acceptAll (code.directives ++ [.closeMethod code.maxLocals])
      ⟨#[], some ⟨⟨⟨"Sample"⟩, .object, [], .publicFlag⟩, #[], #[]⟩,
        some (.start ⟨⟨"run"⟩, ⟨[.int], some .int⟩, .staticFlag⟩)⟩ =
      .ok () ⟨#[], some ⟨⟨⟨"Sample"⟩, .object, [], .publicFlag⟩, #[],
        #[⟨⟨⟨"run"⟩, ⟨[.int], some .int⟩, .staticFlag⟩, code.entries, code.ranges,
          code.maxLocals⟩]⟩, none⟩ ∧
    ∀ pre e post, code.entries = pre ++ e :: post → Passes code.entries e →
      ∃ e' ∈ post, e'.isLabel = false := by
  obtain ⟨code, hcode, hmax, _⟩ := finish_revived
  obtain ⟨hreplay, _, _, hpassed⟩ := finished_code_replays 1 1 revived hcode
  obtain ⟨current, hcurrent, haccept⟩ := hreplay ⟨⟨"run"⟩, ⟨[.int], some .int⟩, .staticFlag⟩
    ⟨#[], some ⟨⟨⟨"Sample"⟩, .object, [], .publicFlag⟩, #[], #[]⟩, none⟩ _ rfl
  cases hcurrent
  exact ⟨code, hcode, hmax, haccept, hpassed⟩

end ClassAssembler
