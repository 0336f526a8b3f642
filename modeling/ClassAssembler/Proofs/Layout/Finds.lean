import ClassAssembler.Proofs.Body.Homes
import ClassAssembler.Proofs.Layout.Plot
import ClassAssembler.Proofs.Layout.Widths

/-!
# What an operation finds

When an operation begins, the values it needs are where their homes are: in their slots, or on the
stack if the operation before it has just left them there.
-/

namespace ClassAssembler

open List Lay Body

namespace Body

def Occupies (b : Body) (homes : Array Home) (v w : Nat) : Prop :=
  ∃ k, homeOf homes v = .slot k ∧ k ≤ w ∧ w < k + b.widthOf v

/-- No other value that is kept has a word in common with a value. -/
def Alone (b : Body) (homes : Array Home) (kept : List Nat) (v : Nat) : Prop :=
  ∀ u ∈ kept, u ≠ v → ∀ w, b.Occupies homes v w → ¬ b.Occupies homes u w

/-- Values that are kept lie one beside the other below the first free slot. -/
structure Tidy (b : Body) (homes : Array Home) (slot : Nat) (kept : List Nat) : Prop where
  below : ∀ v ∈ kept, ∃ k, homeOf homes v = .slot k ∧ k + b.widthOf v ≤ slot
  apart : ∀ v ∈ kept, b.Alone homes kept v

variable {b : Body} {homes : Array Home} {slot slot' v : Nat} {kept : List Nat}

theorem width_typeOf (b : Body) (v : Nat) : (typeOf b v).width = b.widthOf v := by
  unfold typeOf widthOf
  cases b.values[v]? <;> rfl

theorem widthOf_pos (b : Body) (v : Nat) : 0 < b.widthOf v := by
  rw [← width_typeOf]
  exact FieldType.width_pos _

theorem HasWidth.eq {w : Nat} (h : b.HasWidth v w) : b.widthOf v = w := by
  obtain ⟨info, hinfo, rfl⟩ := h
  rw [widthOf, hinfo]

theorem hasWidth_iff {w : Nat} (h : v < b.values.size) : b.HasWidth v w ↔ b.widthOf v = w := by
  refine ⟨HasWidth.eq, fun hw => ?_⟩
  rw [widthOf, Array.getElem?_eq_getElem h] at hw
  exact ⟨_, Array.getElem?_eq_getElem h, hw⟩

namespace Tidy

variable (h : b.Tidy homes slot kept)
include h

theorem mono (hle : slot ≤ slot') : b.Tidy homes slot' kept where
  below v hv := by
    obtain ⟨k, hk, hlt⟩ := h.below v hv
    exact ⟨k, hk, Nat.le_trans hlt hle⟩
  apart := h.apart

theorem alone (hv : homeOf homes v = .slot slot) : b.Alone homes kept v := by
  rintro u hu _ w ⟨k, hk, hle, _⟩ ⟨k', hk', _, hlt⟩
  obtain ⟨k'', hk'', hle'⟩ := h.below u hu
  rw [hv] at hk
  rw [hk'] at hk''
  cases hk
  cases hk''
  omega

theorem not_mem (hv : ∀ k, homeOf homes v = .slot k → k = slot) : v ∉ kept := by
  intro hmem
  obtain ⟨k, hk, hle⟩ := h.below v hmem
  have hpos := b.widthOf_pos v
  have heq := hv k hk
  omega

theorem push (hv : homeOf homes v = .slot slot) :
    b.Tidy homes (slot + b.widthOf v) (kept ++ [v]) where
  below u hu := by
    rcases mem_append.mp hu with hu | hu
    · exact (h.mono (Nat.le_add_right ..)).below u hu
    · rw [mem_singleton.mp hu]
      exact ⟨slot, hv, .refl⟩
  apart u hu u' hu' hne w hw hw' := by
    rcases mem_append.mp hu with hu | hu <;> rcases mem_append.mp hu' with hu' | hu'
    · exact h.apart u hu u' hu' hne w hw hw'
    · rw [mem_singleton.mp hu'] at hw' hne
      exact h.alone hv u hu (Ne.symm hne) w hw' hw
    · rw [mem_singleton.mp hu] at hw hne
      exact h.alone hv u' hu' hne w hw hw'
    · exact hne ((mem_singleton.mp hu').trans (mem_singleton.mp hu).symm)

end Tidy

theorem home_param (hb : b.Sound) (hv : v ∈ b.params) : ∃ (info : ValueInfo) (k : UInt16),
    b.values[v]? = some info ∧ info.origin = .param k ∧
      homeOf b.allocate.homes v = .slot k.toNat ∧ b.widthOf v = info.type.width := by
  obtain ⟨_, hv⟩ := mem_filter.mp hv
  split at hv
  · rename_i type owner k hinfo
    refine ⟨_, k, hinfo, rfl, ?_, by rw [widthOf, hinfo]⟩
    cases owner with
    | none => rw [home_lasting hb hinfo rfl]; rfl
    | some s => rcases hb.owned_origin hinfo rfl with h | h <;> cases h
  · cases hv

theorem tidy_params (hb : b.Sound) : b.Tidy b.allocate.homes b.firstFree b.params := by
  refine ⟨fun v hv => ?_, fun v hv u hu hne w ⟨k, hk, hle, hlt⟩ ⟨k', hk', hle', hlt'⟩ => ?_⟩
  · obtain ⟨info, k, hinfo, horigin, hhome, hwidth⟩ := home_param hb hv
    exact ⟨_, hhome, hwidth ▸ hb.params.bound hinfo horigin⟩
  · obtain ⟨iv, kv, hiv, hov, hhv, hwv⟩ := home_param hb hv
    obtain ⟨iu, ku, hiu, hou, hhu, hwu⟩ := home_param hb hu
    rw [hhv] at hk
    rw [hhu] at hk'
    cases hk
    cases hk'
    rcases Nat.lt_or_gt_of_ne hne with h | h
    · have hapart := hb.params.apart hiu hiv hou hov h
      omega
    · have hapart := hb.params.apart hiv hiu hov hou h
      omega

end Body

namespace Plot

variable (b : Body) (homes : Array Home)

def finds (op : Operation) : List (Cell (Option Nat)) :=
  if op.isCaught then [⟨none, 1⟩]
  else match op.top? with
    | some v => if homeOf homes v = .stack then [⟨some v, b.widthOf v⟩] else []
    | none => []

def entering (scope : Nat) (kept : List Nat) : Status :=
  ⟨if (b.kindOf scope).isHandler then [⟨none, 1⟩] else [], kept⟩

/-- An operation finds what it needs. -/
structure Meets (slot : Nat) (status : Status) (op : Operation) : Prop where
  stack : status.stack = finds b homes op
  tidy : b.Tidy homes slot status.kept
  home : ∀ v ∈ op.operands.map Operand.value, homeOf homes v ≠ .nowhere
  kept : ∀ v ∈ op.needs, ∀ k, homeOf homes v = .slot k → v ∈ status.kept
  constant : ∀ v ∈ op.operands.map Operand.value, homeOf homes v = .constant →
    ∃ info l, b.values[v]? = some info ∧ info.origin = .constant l ∧ l.words = info.type.width
  onTop : ∀ v ∈ op.operands.map Operand.value, homeOf homes v = .stack →
    op.top? = some v ∧ (op.operands.map Operand.value).count v = 1
  changes : ∀ v ∈ op.changes, ∃ k, homeOf homes v = .slot k
  declared : ∀ v ∈ op.declared, homeOf homes v = .slot slot
  defines : ∀ v ∈ op.defines, homeOf homes v = .slot slot ∨ homeOf homes v = .stack ∨
    homeOf homes v = .nowhere

end Plot

namespace Plot

open Allocation

variable {b : Body} {s t v slot : Nat} {l1 l2 : List Operation} {op d : Operation}

theorem leaves_eq_nil {homes : Array Home} (h : ∀ action operands v,
    d = .simple action operands (some v) → homeOf homes v ≠ .stack) : leaves b homes d = [] := by
  cases d with
  | simple action operands result =>
    cases result with
    | none => rfl
    | some v =>
      rw [leaves]
      split
      · next hhome => exact absurd hhome (h action operands v rfl)
      · rfl
  | _ => rfl

section

variable (hb : b.Sound) (hs : b.Region 0 s)
include hb hs

theorem finds_first (hops : b.operations s = op :: l2) :
    finds b b.allocate.homes op = (entering b s []).stack := by
  have hops : b.operations s = [] ++ op :: l2 := hops
  have hcaught : op.isCaught ↔ (b.kindOf s).isHandler := by
    rw [hb.caught hops]
    simp
  unfold finds entering
  by_cases h : op.isCaught
  · rw [if_pos h, if_pos (hcaught.mp h)]
  · rw [if_neg h, if_neg (fun hh => h (hcaught.mpr hh))]
    split
    · next v htop =>
      rw [if_neg fun hhome => ?_]
      obtain ⟨_, _, l0, action, operands, hnil⟩ :=
        stack_read hb hs hops (mem_operands_of_top htop) hhome
      simp at hnil
    · rfl

theorem finds_next (hops : b.operations s = l1 ++ d :: op :: l2) :
    finds b b.allocate.homes op = leaves b b.allocate.homes d := by
  have hops' : b.operations s = (l1 ++ [d]) ++ op :: l2 := by rw [hops]; simp
  have hcaught : ¬ op.isCaught := by
    rw [hb.caught hops']
    simp
  -- What stays on the stack is the result of the operation before.
  have hresult : ∀ {v action operands}, d = .simple action operands (some v) →
      homeOf b.allocate.homes v = .stack → op.top? = some v := by
    rintro v action operands rfl hhome
    exact (home_stack hb hs hops (Operation.mem_defines_of_result (.head _)) hhome).2.2
  rw [finds, if_neg hcaught]
  cases htop : op.top? with
  | none =>
    refine (leaves_eq_nil fun action operands v hd hhome => ?_).symm
    rw [hresult hd hhome] at htop
    cases htop
  | some v =>
    dsimp only
    split
    · next hhome =>
      obtain ⟨_, _, l0, action, operands, hlast⟩ :=
        stack_read hb hs hops' (mem_operands_of_top htop) hhome
      obtain ⟨rfl, hd⟩ := append_inj' hlast rfl
      cases hd
      rw [leaves, hhome, width_typeOf]
    · next hhome =>
      refine (leaves_eq_nil fun action operands u hd hu => ?_).symm
      rw [hresult hd hu] at htop
      cases htop
      exact hhome hu

theorem leaves_last (hops : b.operations s = l1 ++ [d]) :
    leaves b b.allocate.homes d = [] := by
  refine leaves_eq_nil fun action operands v hd hhome => ?_
  subst hd
  have htop := (home_stack hb hs hops (Operation.mem_defines_of_result (.head _)) hhome).2.2
  cases htop

end

/-- What holds behind some operations of a scope, with the first free slot there. -/
structure Along (b : Body) (s : Nat) (done : List Operation) (slot : Nat) (kept : List Nat) :
    Prop where
  region : b.Region 0 s
  tidy : b.Tidy b.allocate.homes slot kept
  knows : ∀ v, b.Visible s (done.flatMap Operation.defines) v →
    ∀ k, homeOf b.allocate.homes v = .slot k → v ∈ kept

namespace Along

theorem root (hb : b.Sound) : Along b 0 [] b.firstFree b.params where
  region := .refl
  tidy := tidy_params hb
  knows v hv k hk := by
    obtain ⟨info, hinfo, hnone | ⟨_, hmem⟩ | ⟨c, owner, _, hc, hparent, _⟩⟩ := hv
    · rw [home_lasting hb hinfo hnone] at hk
      obtain ⟨type, owner, origin⟩ := info
      refine mem_filter.mpr ⟨mem_range.mpr (Array.getElem?_eq_some_iff.mp hinfo).1, ?_⟩
      cases origin with
      | param slot => rw [hinfo]
      | _ => cases hk
    · cases hmem
    · cases Nat.le_zero.mp (hc.le hb.descends)
      exact absurd (hb.descends hparent) (Nat.not_lt_zero _)

variable {kept : List Nat}

theorem meets (hb : b.Sound) (h : Along b s l1 slot kept)
    (hops : b.operations s = l1 ++ op :: l2) {inner : Nat → Nat → Prop}
    (hhoused : HousedFrom b (reads b) b.allocate.homes inner (op :: l2) slot)
    {status : Status} (hkept : status.kept = kept)
    (hstack : status.stack = finds b b.allocate.homes op) :
    Meets b b.allocate.homes slot status op where
  stack := hstack
  tidy := hkept ▸ h.tidy
  home v hv := home_read hb h.region hops hv
  kept v hv k hk := hkept ▸ h.knows v (hb.visible hops v hv) k hk
  constant v hv hhome := by
    obtain ⟨info, hinfo, _⟩ := hb.visible hops v (mem_append_left _ hv)
    cases howner : info.owner with
    | none =>
      rw [home_lasting hb hinfo howner] at hhome
      rcases hb.lasting hinfo howner with ⟨k, hk⟩ | ⟨l, hl, hwidth⟩
      · rw [hk] at hhome
        cases hhome
      · exact ⟨info, l, hinfo, hl, hwidth⟩
    | some t =>
      obtain ⟨ht, m1, op', m2, hops', hdef⟩ :=
        (hb.visible hops v (mem_append_left _ hv)).source hb h.region hinfo howner
      obtain ⟨k, hgiven⟩ := home_defined hb ht hops' hdef
      rw [hhome, given] at hgiven
      repeat' split at hgiven
      all_goals cases hgiven
  onTop v hv hhome := by
    obtain ⟨htop, hcount, _⟩ := stack_read hb h.region hops hv hhome
    exact ⟨htop, hcount⟩
  changes v hv := by
    have hop : op ∈ b.operations s := by rw [hops]; simp
    refine home_variable hb h.region (hb.visible hops v (mem_append_right _ hv)) ?_
    have hfits := hb.fits hop
    cases op with
    | simple action operands result =>
      cases action with
      | store var declares =>
        cases declares with
        | true => cases hv
        | false =>
          cases mem_singleton.mp hv
          exact hfits.2.2
      | inc var delta =>
        cases mem_singleton.mp hv
        exact hfits.2.2.1
      | _ => cases hv
    | _ => cases hv
  declared v hv := by
    obtain ⟨operands, result, rfl⟩ := exists_of_mem_declared hv
    rw [hhoused.1 v (.head ..), given, if_pos hv]
  defines v hv := by
    rw [hhoused.1 v hv, given]
    repeat' split
    all_goals simp

theorem defines_cases (hfits : op.Fits b s) : op.defines = [] ∨ ∃ v, op.defines = [v] := by
  cases op with
  | simple action operands result =>
    have hresult : result.toList = [] ∨ ∃ v, result.toList = [v] := by
      cases result with
      | none => exact .inl rfl
      | some v => exact .inr ⟨v, rfl⟩
    cases action with
    | store var declares =>
      obtain ⟨_, rfl, _⟩ := hfits
      cases declares with
      | true => exact .inr ⟨var, rfl⟩
      | false => exact .inl rfl
    | _ => exact hresult
  | _ => exact .inl rfl

theorem next (hb : b.Sound) (h : Along b s l1 slot kept) (hops : b.operations s = l1 ++ op :: l2)
    {status : Status} (hmeets : Meets b b.allocate.homes slot status op) :
    Along b s (l1 ++ [op]) (slot + taken b b.allocate.homes op)
      (kept ++ op.defines.filter (inSlot b.allocate.homes)) where
  region := h.region
  tidy := by
    have hop : op ∈ b.operations s := by rw [hops]; simp
    rcases defines_cases (hb.fits hop) with hnil | ⟨v, hv⟩
    · rw [taken, hnil]
      simpa [wordsOf] using h.tidy
    · have htaken : taken b b.allocate.homes op =
          (homeOf b.allocate.homes v).words (b.widthOf v) := by
        rw [taken, hv, wordsOf, wordsOf, Nat.add_zero]
      rw [htaken, hv]
      rcases hmeets.defines v (by rw [hv]; simp) with hhome | hhome | hhome
      · rw [hhome, filter_cons_of_pos (by rw [inSlot, hhome])]
        exact h.tidy.push hhome
      all_goals
        rw [hhome, filter_cons_of_neg (by rw [inSlot, hhome]; exact Bool.false_ne_true)]
        simpa [Home.words] using h.tidy
  knows v hv k hk := by
    obtain ⟨info, hinfo, hown⟩ := hv
    have hold : b.Visible s (l1.flatMap Operation.defines) v → v ∈ kept := fun h' =>
      h.knows v h' k hk
    rcases hown with hnone | ⟨howner, hmem⟩ | hbefore
    · exact mem_append_left _ (hold ⟨info, hinfo, .inl hnone⟩)
    · rw [flatMap_append, mem_append] at hmem
      rcases hmem with hmem | hmem
      · exact mem_append_left _ (hold ⟨info, hinfo, .inr (.inl ⟨howner, hmem⟩)⟩)
      · refine mem_append_right _ (mem_filter.mpr ⟨?_, by rw [inSlot, hk]⟩)
        simpa using hmem
    · exact mem_append_left _ (hold ⟨info, hinfo, .inr (.inr hbefore)⟩)

theorem enter (hb : b.Sound) (h : Along b s l1 slot kept)
    (hops : b.operations s = l1 ++ op :: l2) {c : Nat} (hc : c ∈ op.nested) :
    Along b c [] slot kept where
  region := .step h.region (mem_owned (by rw [hops]; simp) (mem_owned_of_nested hc))
  tidy := h.tidy
  knows v hv k hk := by
    have hown := mem_owned_of_nested hc
    exact h.knows v (visible_of_owned hb hops hown hv) k hk

end Along
end Plot
end ClassAssembler
