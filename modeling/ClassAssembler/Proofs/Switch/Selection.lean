import ClassAssembler.Proofs.Build.SwitchKeys

/-!
# The arm a switch goes to

A switch is decided by what its selector is when it runs: a number, the units of a string, or an
entry of an ordinal table.
-/

namespace ClassAssembler

open List

namespace Text

/-- The units of a character that is not in the basic plane are surrogates, those of all others are
not. -/
theorem charUnits_inj {c d : Char} {us vs : List Nat}
    (h : charUnits c ++ us = charUnits d ++ vs) : c = d ∧ us = vs := by
  have hc := c.valid
  have hd := d.valid
  have htoNat : c.toNat = d.toNat ∧ us = vs := by
    unfold charUnits at h
    simp only [UInt32.isValidChar, Nat.isValidChar] at hc hd
    change (c.toNat < 0xd800 ∨ 0xdfff < c.toNat ∧ c.toNat < 0x110000) at hc
    change (d.toNat < 0xd800 ∨ 0xdfff < d.toNat ∧ d.toNat < 0x110000) at hd
    split at h <;> split at h <;>
      simp only [cons_append, List.nil_append, List.cons.injEq] at h
    · exact h
    · omega
    · omega
    · exact ⟨by omega, h.2.2⟩
  exact ⟨Char.toNat_inj.mp htoNat.1, htoNat.2⟩

theorem charUnits_ne_nil (c : Char) : charUnits c ≠ [] := by
  unfold charUnits
  split <;> simp

theorem units_inj {s t : String} (h : units s = units t) : s = t := by
  have hlists : ∀ cs ds : List Char, cs.flatMap charUnits = ds.flatMap charUnits → cs = ds := by
    intro cs
    induction cs with
    | nil =>
      intro ds h
      cases ds with
      | nil => rfl
      | cons d ds =>
        have hnil := (append_eq_nil_iff.mp h.symm).1
        exact absurd hnil (charUnits_ne_nil d)
    | cons c cs ih =>
      intro ds h
      cases ds with
      | nil => exact absurd (append_eq_nil_iff.mp h).1 (charUnits_ne_nil c)
      | cons d ds =>
        rw [flatMap_cons, flatMap_cons] at h
        obtain ⟨rfl, htail⟩ := charUnits_inj h
        rw [ih ds htail]
  exact String.toList_inj.mp (hlists _ _ h)

end Text

/-- What a switch is decided by. -/
inductive Subject where
  | int (value : Int32)
  | text (units : List Nat)
  | index (value : Int32)
  deriving DecidableEq

def CaseKey.means : CaseKey → Subject → Bool
  | int n, .int v => n = v
  | text t, .text units => Text.units t = units
  | index n, .index v => n = v
  | _, _ => false

theorem CaseKey.means_inj {key key' : CaseKey} {x : Subject} (h : key.means x) (h' : key'.means x) :
    key = key' := by
  cases x <;> cases key <;> cases key' <;> simp_all [means]
  · exact Text.units_inj (h.trans h'.symm)

def Arm.answers (arm : Arm) (x : Subject) : Bool := arm.keys.any (·.means x)

namespace SwitchStatement

/-- Where a switch goes: to the one arm with a label for the subject, to the arm for everything
else if there is none, and behind the switch if there is no such arm either. -/
inductive Selects (S : SwitchStatement) (x : Subject) : Option Arm → Prop
  | labelled {arm : Arm} : arm ∈ S.arms → arm.answers x →
      (∀ other ∈ S.arms, other.answers x → other = arm) → Selects S x (some arm)
  | default {arm : Arm} : (∀ other ∈ S.arms, ¬ other.answers x) → arm ∈ S.arms → arm.isDefault →
      Selects S x (some arm)
  | exit : (∀ other ∈ S.arms, ¬ other.answers x) → (∀ arm ∈ S.arms, ¬ arm.isDefault) →
      Selects S x none

def arm? (S : SwitchStatement) (x : Subject) : Option Arm :=
  (S.arms.find? (·.answers x)).or (S.arms.find? Arm.isDefault)

end SwitchStatement

theorem Arm.eq_of_nodup {arms : List Arm} (h : (arms.flatMap Arm.keys).Nodup) {arm arm' : Arm}
    {key : CaseKey} (harm : arm ∈ arms) (harm' : arm' ∈ arms) (hkey : key ∈ arm.keys)
    (hkey' : key ∈ arm'.keys) : arm = arm' := by
  induction arms with
  | nil => cases harm
  | cons first arms ih =>
    rw [flatMap_cons] at h
    obtain ⟨_, htail, hapart⟩ := nodup_append.mp h
    rcases mem_cons.mp harm with rfl | hmem <;> rcases mem_cons.mp harm' with rfl | hmem'
    · rfl
    · exact absurd rfl (hapart key hkey key (mem_flatMap_of_mem hmem' hkey'))
    · exact absurd rfl (hapart key hkey' key (mem_flatMap_of_mem hmem hkey))
    · exact ih htail hmem hmem'

theorem Keyed.selects {tables : OrdinalTable.All} {table : Option Nat} {S : SwitchStatement}
    (h : Keyed tables table S.kind S.arms) (x : Subject) : S.Selects x (S.arm? x) := by
  unfold SwitchStatement.arm?
  cases hfind : S.arms.find? (·.answers x) with
  | some arm =>
    have hanswers := find?_some hfind
    have hmem := mem_of_find?_eq_some hfind
    refine .labelled hmem hanswers fun other hother hother' => ?_
    obtain ⟨key, hkey, hmeans⟩ := any_eq_true.mp hanswers
    obtain ⟨key', hkey', hmeans'⟩ := any_eq_true.mp hother'
    cases CaseKey.means_inj hmeans hmeans'
    exact Arm.eq_of_nodup h.nodup hother hmem hkey' hkey
  | none =>
    have hnone := find?_eq_none.mp hfind
    cases hdefault : S.arms.find? Arm.isDefault with
    | some arm =>
      exact .default hnone (mem_of_find?_eq_some hdefault) (find?_some hdefault)
    | none => exact .exit hnone (find?_eq_none.mp hdefault)

def Body.arrival (b : Body) (S : SwitchStatement) : Option Arm → Label
  | some arm => Lay.entryOf b arm.scope
  | none => Lay.exitOf b S.frame

theorem Body.arrival_arm? (b : Body) (S : SwitchStatement) (x : Subject) :
    b.arrival S (S.arm? x) = ((S.arms.find? (·.answers x)).map fun arm =>
      Lay.entryOf b arm.scope).getD (Lay.fallback b S) := by
  unfold SwitchStatement.arm? Lay.fallback
  cases S.arms.find? (·.answers x) with
  | some arm => rfl
  | none => cases S.arms.find? Arm.isDefault <;> rfl

end ClassAssembler
