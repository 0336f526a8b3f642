import ClassAssembler.Proofs.Body.Ready

/-!
# Regions

The region of a scope is what is laid out for it: the scope itself and the regions of the scopes
that its operations own.
-/

namespace ClassAssembler
namespace Body

/-- A scope is laid out with another. -/
inductive Region (b : Body) (s : Nat) : Nat → Prop
  | refl : Region b s s
  | step {t c : Nat} : Region b s t → c ∈ b.owned t → Region b s c

def Inside (b : Body) (s c : Nat) : Prop := ∃ t, b.Region s t ∧ c ∈ b.owned t

variable {b : Body} {s t c d x : Nat}

theorem mem_owned {op : Operation} (hop : op ∈ b.operations s) (hc : c ∈ op.owned) :
    c ∈ b.owned s := List.mem_flatMap_of_mem hop hc

theorem mem_owned_of_nested {op : Operation} (hc : c ∈ op.nested) : c ∈ op.owned :=
  List.mem_append_right _ hc

namespace Region

theorem trans (h : b.Region s t) (h' : b.Region t c) : b.Region s c := by
  induction h' with
  | refl => exact h
  | step _ hc ih => exact .step ih hc

theorem of_owned (hc : c ∈ b.owned s) : b.Region s c := .step .refl hc

theorem le (hb : b.Sound) (h : b.Region s t) : s ≤ t := by
  induction h with
  | refl => exact Nat.le_refl _
  | step _ hc ih => exact Nat.le_trans ih (Nat.le_of_lt (hb.owned_gt hc))

theorem eq_or_inside (h : b.Region s t) : t = s ∨ b.Inside s t := by
  cases h with
  | refl => exact .inl rfl
  | step h hc => exact .inr ⟨_, h, hc⟩

theorem total (hb : b.Sound) (h : b.Region s c) (h' : b.Region t c) :
    b.Region s t ∨ b.Region t s := by
  induction h with
  | refl => exact .inr h'
  | step h hc ih =>
    cases h' with
    | refl => exact .inl (.step h hc)
    | step h' hc' =>
      cases hb.owned_unique hc hc'
      exact ih h'

end Region

namespace Inside

theorem region (h : b.Inside s c) : b.Region s c := by
  obtain ⟨t, ht, hc⟩ := h
  exact .step ht hc

theorem lt (hb : b.Sound) (h : b.Inside s c) : s < c := by
  obtain ⟨t, ht, hc⟩ := h
  exact Nat.lt_of_le_of_lt (ht.le hb) (hb.owned_gt hc)

theorem of_owned (hc : c ∈ b.owned s) (h : b.Region c d) : b.Inside s d := by
  rcases h.eq_or_inside with rfl | ⟨t, ht, hd⟩
  · exact ⟨s, .refl, hc⟩
  · exact ⟨t, (Region.of_owned hc).trans ht, hd⟩

theorem not_owned (hb : b.Sound) (hc : c ∈ b.owned s) (h : b.Inside c d) : d ∉ b.owned s := by
  intro hd
  obtain ⟨t, ht, hd'⟩ := h
  cases hb.owned_unique hd hd'
  exact absurd (ht.le hb) (Nat.not_le.mpr (hb.owned_gt hc))

end Inside

theorem region_unique (hb : b.Sound) (hc : c ∈ b.owned s) (hd : d ∈ b.owned s)
    (h : b.Region c x) (h' : b.Region d x) : c = d := by
  have key : ∀ {c d : Nat}, c ∈ b.owned s → d ∈ b.owned s → b.Region c d → d = c := by
    intro c d hc hd h
    rcases h.eq_or_inside with heq | hin
    · exact heq
    · exact absurd hd (hin.not_owned hb hc)
  rcases h.total hb h' with hcd | hdc
  · exact (key hc hd hcd).symm
  · exact key hd hc hdc

theorem not_isFrame {op : Operation} (hb : b.Sound) (hop : op ∈ b.operations s) :
    (b.kindOf s).isFrame = false := by
  cases hk : (b.kindOf s).isFrame with
  | false => rfl
  | true =>
    rw [hb.frames hk] at hop
    cases hop

theorem nests {op : Operation} (hb : b.Sound) (hop : op ∈ b.operations s) (hc : c ∈ op.owned) :
    b.Nests s op c := nests_of_fits (hb.fits hop) hc

namespace Nests

variable {op : Operation}

theorem within (h : b.Nests s op c) (hc : c ∈ op.owned) (hx : b.Within x c) :
    x ∈ op.owned ∨ b.Within x s := by
  cases h with
  | child hp =>
    rcases (Within.iff_parent hp).mp hx with rfl | hx
    · exact .inl hc
    · exact .inr hx
  | part hmem hp hps _ =>
    rcases (Within.iff_parent hp).mp hx with rfl | hx
    · exact .inl hc
    rcases (Within.iff_parent hps).mp hx with rfl | hx
    · exact .inl hmem
    · exact .inr hx
  | copy hp _ hg =>
    rcases (Within.iff_parent hp).mp hx with rfl | hx
    · exact .inl hc
    · exact .inr (hx.trans hg.within)

end Nests

section owned

variable {op : Operation} (hb : b.Sound)
include hb

theorem guards_of_owned (hop : op ∈ b.operations s) (hc : c ∈ op.owned) (hx : x ≤ s)
    (hg : b.Guards x c) : b.Guards x s := by
  obtain ⟨htry, d, hd, hdp, hguarded⟩ := hg
  rcases (nests hb hop hc).within hc hd with hmem | hd
  · cases nests hb hop hmem with
    | child hp =>
      rw [hp] at hdp
      cases hdp
      have hframe := not_isFrame hb hop
      rw [htry] at hframe
      cases hframe
    | part hmem hp =>
      have hlt := hb.owned_gt (mem_owned hop hmem)
      rw [hp] at hdp
      cases hdp
      omega
    | copy _ hk =>
      rw [hk] at hguarded
      cases hguarded
  · exact ⟨htry, d, hd, hdp, hguarded⟩

theorem visible_of_owned {l1 l2 : List Operation} (hops : b.operations s = l1 ++ op :: l2)
    (hc : c ∈ op.owned) {v : Nat} (hv : b.Visible c [] v) :
    b.Visible s (l1.flatMap Operation.defines) v := by
  have hop : op ∈ b.operations s := by rw [hops]; simp
  obtain ⟨info, hinfo, hown⟩ := hv
  refine ⟨info, hinfo, ?_⟩
  rcases hown with hnone | ⟨_, hmem⟩ | ⟨d, owner, howner, hd, hdp, hkind, hbefore⟩
  · exact .inl hnone
  · cases hmem
  have hframe : ∀ {f}, (b.kindOf f).isFrame → ¬ v ∈ b.defines f := by
    intro f hf hmem
    rw [defines, hb.frames hf] at hmem
    cases hmem
  rcases (nests hb hop hc).within hc hd with hmem | hd
  · cases nests hb hop hmem with
    | child hp =>
      -- Values of the scope itself were there before the operation.
      rw [hp] at hdp
      cases hdp
      exact .inr (.inl ⟨howner, hbefore.2 l1 op l2 hops hmem⟩)
    | part _ hp _ hpart =>
      rw [hp] at hdp
      cases hdp
      rcases hpart with hpart | hpart
      · exact absurd hbefore.1 (hframe hpart)
      · exact absurd hpart hkind
    | copy hp _ hg =>
      rw [hp] at hdp
      cases hdp
      exact absurd hbefore.1 (hframe (by rw [hg.1]; rfl))
  · exact .inr (.inr ⟨d, owner, howner, hd, hdp, hkind, hbefore⟩)

end owned

theorem Region.guards (hb : b.Sound) (h : b.Region s t) (hx : x ≤ s) (hg : b.Guards x t) :
    b.Guards x s := by
  induction h with
  | refl => exact hg
  | step h hc ih =>
    obtain ⟨op, hop, hc⟩ := List.mem_flatMap.mp hc
    exact ih (guards_of_owned hb hop hc (Nat.le_trans hx (h.le hb)) hg)

theorem Region.lt_size (hb : b.Sound) (h : b.Region s t) (hs : s < b.scopes.size) :
    t < b.scopes.size := by
  cases h with
  | refl => exact hs
  | step _ hc => exact hb.owned_lt hc

end Body
end ClassAssembler
