import ClassAssembler.Proofs.Body.Region

/-!
# Homes of values

What the walk that gives values their homes leaves behind.
-/

namespace ClassAssembler

variable {a a' : Allocation} {known : List Nat} {l1 : List Operation} {info : ValueInfo}

open List Body Lay

namespace Operation

/-- The variable that starts to exist with an operation. -/
def declared : Operation → List Nat
  | simple (.store var true) _ _ => [var]
  | _ => []

end Operation

namespace Home

def words (width : Nat) : Home → Nat
  | slot _ => width
  | _ => 0

end Home

namespace Body

def widthOf (b : Body) (value : Nat) : Nat :=
  match b.values[value]? with
  | some info => info.type.width
  | none => 1

def wordsOf (b : Body) (home : Nat → Home) : List Nat → Nat
  | [] => 0
  | v :: vs => (home v).words (b.widthOf v) + wordsOf b home vs

theorem wordsOf_congr {b : Body} {home home' : Nat → Home} {vs : List Nat}
    (h : ∀ v ∈ vs, home v = home' v) : b.wordsOf home vs = b.wordsOf home' vs := by
  induction vs with
  | nil => rfl
  | cons v vs ih =>
    rw [wordsOf, wordsOf, h v (.head ..), ih fun u hu => h u (.tail _ hu)]

def allReads (b : Body) : List Nat :=
  b.scopes.toList.flatMap fun scope =>
    scope.operations.toList.flatMap fun op => op.operands.map Operand.value

/-- The values of a scope and of the scopes inside it, down to some depth. -/
def valuesIn (b : Body) : (depth : Nat) → (scope : Nat) → List Nat
  | 0, _ => []
  | depth + 1, scope => (b.operations scope).flatMap fun op =>
      op.defines ++ op.nested.flatMap (valuesIn b depth)

end Body

namespace Allocation

variable {v : Nat}

theorem getD_foldl_modify (vs : List Nat) (counts : Array Nat) (hv : v < counts.size) :
    (vs.foldl (fun counts i => counts.modify i (· + 1)) counts)[v]?.getD 0 =
      counts[v]?.getD 0 + vs.count v := by
  induction vs generalizing counts with
  | nil => rfl
  | cons i vs ih =>
    rw [foldl_cons, ih _ (by rwa [Array.size_modify]), count_cons, Array.getElem?_modify,
      Array.getElem?_eq_getElem hv]
    by_cases h : i = v
    · simp [h]
      omega
    · simp [h]

theorem reads_eq (b : Body) (hv : v < b.values.size) :
    (reads b)[v]?.getD 0 = b.allReads.count v := by
  have hfold : reads b = b.allReads.foldl (fun counts i => counts.modify i (· + 1))
      (Array.replicate b.values.size 0) := by
    simp only [reads, allReads, foldl_flatMap, foldl_map, Array.foldl_toList]
  rw [hfold, getD_foldl_modify _ _ (by rwa [Array.size_replicate])]
  simp [hv]

/-- The home of a value that an operation gives a meaning to, if `slot` is free. -/
def given (counts : Array Nat) (op : Operation) (next : Option Operation) (slot value : Nat) :
    Home :=
  if value ∈ op.declared then .slot slot
  else if counts[value]?.getD 0 = 0 then .nowhere
  else if counts[value]?.getD 0 = 1 ∧ next.bind Operation.top? = some value then .stack
  else .slot slot

variable {b : Body} {counts : Array Nat} {s : Nat} {op : Operation} {next : Option Operation}

/-- What an operation does to the number of slots: it takes some for its value, or none. -/
inductive Takes (b : Body) (counts : Array Nat) (op : Operation) (next : Option Operation)
    (a a' : Allocation) : Prop
  | some {v : Nat} : op.defines = [v] → given counts op next a.nextSlot v = .slot a.nextSlot →
      a'.maxLocals = max a.maxLocals (a.nextSlot + b.widthOf v) → Takes b counts op next a a'
  | none : (∀ v ∈ op.defines, ∀ k, given counts op next a.nextSlot v ≠ .slot k) →
      a'.maxLocals = a.maxLocals → Takes b counts op next a a'

/-- How an operation changes an allocation by giving homes to its values. -/
structure Settles (b : Body) (counts : Array Nat) (op : Operation) (next : Option Operation)
    (a a' : Allocation) : Prop where
  size : a'.homes.size = a.homes.size
  same : ∀ v, v ∉ op.defines → a'.homes[v]? = a.homes[v]?
  home : ∀ v ∈ op.defines, v < a.homes.size →
    a'.homes[v]? = some (given counts op next a.nextSlot v)
  nextSlot : a'.nextSlot = a.nextSlot + b.wordsOf (given counts op next a.nextSlot) op.defines
  takes : Takes b counts op next a a'

theorem settles_none (h : op.defines = []) : Settles b counts op next a a where
  size := rfl
  same _ _ := rfl
  home v hv := by rw [h] at hv; cases hv
  nextSlot := by rw [h]; rfl
  takes := .none (fun v hv => by rw [h] at hv; cases hv) rfl

theorem settles_one (h : op.defines = [v])
    (hhomes : a'.homes = a.homes.setIfInBounds v (given counts op next a.nextSlot v))
    (hnext : a'.nextSlot =
      a.nextSlot + (given counts op next a.nextSlot v).words (b.widthOf v))
    (htakes : Takes b counts op next a a') : Settles b counts op next a a' where
  size := by rw [hhomes, Array.size_setIfInBounds]
  same u hu := by
    rw [h, mem_singleton] at hu
    rw [hhomes, Array.getElem?_setIfInBounds_ne (Ne.symm hu)]
  home u hu hlt := by
    rw [h, mem_singleton] at hu
    rw [hhomes, hu, Array.getElem?_setIfInBounds_self_of_lt (hu ▸ hlt)]
  nextSlot := by rw [hnext, h]; rfl
  takes := htakes

theorem settles_place (h : op.defines = [v]) (hd : op.declared = []) :
    Settles b counts op next a (a.place b counts v next) := by
  have hgiven : given counts op next a.nextSlot v =
      if counts[v]?.getD 0 = 0 then .nowhere
      else if counts[v]?.getD 0 = 1 ∧ next.bind Operation.top? = some v then .stack
      else .slot a.nextSlot := by
    rw [given, hd, if_neg not_mem_nil]
  have hnone : (∀ k, given counts op next a.nextSlot v ≠ .slot k) →
      ∀ u ∈ op.defines, ∀ k, given counts op next a.nextSlot u ≠ .slot k := by
    intro hv u hu
    rw [h, mem_singleton] at hu
    rwa [hu]
  unfold place
  dsimp only
  split
  · next h0 =>
    rw [if_pos h0] at hgiven
    exact settles_one h (by rw [hgiven]) (by rw [hgiven]; rfl)
      (.none (hnone fun k => by rw [hgiven]; intro h; cases h) rfl)
  · next h0 =>
    rw [if_neg h0] at hgiven
    split
    · next h1 =>
      rw [if_pos h1] at hgiven
      exact settles_one h (by rw [hgiven]) (by rw [hgiven]; rfl)
        (.none (hnone fun k => by rw [hgiven]; intro h; cases h) rfl)
    · next h1 =>
      rw [if_neg h1] at hgiven
      exact settles_one h (by rw [hgiven]; rfl) (by rw [hgiven]; rfl) (.some h hgiven rfl)

theorem settles_operation (hfits : op.Fits b s) (a : Allocation) :
    Settles b counts op next a (a.operation b counts op next) := by
  cases op with
  | simple action operands result =>
    cases result with
    | none =>
      cases action with
      | store var declares =>
        cases declares with
        | false => exact settles_none rfl
        | true =>
          have hgiven : given counts (.simple (.store var true) operands none) next a.nextSlot var =
              .slot a.nextSlot := if_pos (.head _)
          exact settles_one rfl (by rw [hgiven]; rfl) (by rw [hgiven]; rfl) (.some rfl hgiven rfl)
      | _ => exact settles_none rfl
    | some v =>
      cases action with
      | store var declares => cases hfits.2.1
      | _ => exact settles_place rfl rfl
  | _ => exact settles_none rfl

end Allocation

namespace Body

variable {b : Body} {s c d v depth : Nat}

theorem mem_valuesIn (h : v ∈ b.valuesIn depth s) : ∃ t, b.Region s t ∧ v ∈ b.defines t := by
  induction depth generalizing s with
  | zero => cases h
  | succ depth ih =>
    obtain ⟨op, hop, hv⟩ := mem_flatMap.mp h
    rcases mem_append.mp hv with hv | hv
    · exact ⟨s, .refl, mem_flatMap.mpr ⟨op, hop, hv⟩⟩
    · obtain ⟨c, hc, hv⟩ := mem_flatMap.mp hv
      obtain ⟨t, ht, hmem⟩ := ih hv
      exact ⟨t, (Region.of_owned (mem_owned hop (mem_owned_of_nested hc))).trans ht, hmem⟩

theorem owner_of_defines (hb : b.Sound) (h : v ∈ b.defines s) {info : ValueInfo}
    (hinfo : b.values[v]? = some info) : info.owner = some s := by
  obtain ⟨info', hinfo', howner⟩ := hb.defines_owner h
  rw [hinfo] at hinfo'
  cases hinfo'
  exact howner

theorem defines_unique (hb : b.Sound) (h : v ∈ b.defines s) (h' : v ∈ b.defines c) : s = c := by
  obtain ⟨info, hinfo, howner⟩ := hb.defines_owner h
  exact Option.some.inj (howner.symm.trans (owner_of_defines hb h' hinfo))

theorem defines_lt (hb : b.Sound) (h : v ∈ b.defines s) : v < b.values.size := by
  obtain ⟨info, hinfo, _⟩ := hb.defines_owner h
  exact (Array.getElem?_eq_some_iff.mp hinfo).1

theorem valuesIn_apart (hb : b.Sound) (hc : c ∈ b.owned s) (hd : d ∈ b.owned s) (hne : c ≠ d)
    (h : v ∈ b.valuesIn depth c) : v ∉ b.valuesIn depth d := by
  intro h'
  obtain ⟨t, ht, hv⟩ := mem_valuesIn h
  obtain ⟨t', ht', hv'⟩ := mem_valuesIn h'
  cases defines_unique hb hv hv'
  exact hne (region_unique hb hc hd ht ht')

theorem valuesIn_inner (hb : b.Sound) (hc : c ∈ b.owned s) (h : v ∈ b.valuesIn depth c) :
    v ∉ b.defines s := by
  intro h'
  obtain ⟨t, ht, hv⟩ := mem_valuesIn h
  cases defines_unique hb hv h'
  exact absurd (ht.le hb) (Nat.not_le.mpr (hb.owned_gt hc))

end Body

namespace Allocation

def taken (b : Body) (homes : Array Home) (op : Operation) : Nat :=
  b.wordsOf (homeOf homes) op.defines

/-! ## Homes of a walk -/

/-- Operations from the first free slot on, given the same for the scopes inside. -/
def HousedFrom (b : Body) (counts : Array Nat) (homes : Array Home) (inner : Nat → Nat → Prop) :
    List Operation → Nat → Prop
  | [], _ => True
  | op :: rest, slot =>
      (∀ v ∈ op.defines, homeOf homes v = given counts op rest.head? slot v) ∧
        (∀ c ∈ op.nested, inner c (slot + taken b homes op)) ∧
        HousedFrom b counts homes inner rest (slot + taken b homes op)

/-- The values of a scope, and of the scopes inside it, have the homes picked for them. -/
def Housed (b : Body) (counts : Array Nat) (homes : Array Home) :
    (depth : Nat) → (scope slot : Nat) → Prop
  | 0, _, _ => True
  | depth + 1, scope, slot =>
      HousedFrom b counts homes (Housed b counts homes depth) (b.operations scope) slot

variable {b : Body} {counts : Array Nat} {homes homes' : Array Home} {s depth slot : Nat}

variable {op : Operation}

theorem taken_congr (h : ∀ v ∈ op.defines, homeOf homes' v = homeOf homes v) :
    taken b homes' op = taken b homes op := wordsOf_congr h

theorem HousedFrom.congr {ops : List Operation} {inner inner' : Nat → Nat → Prop}
    (h : HousedFrom b counts homes inner ops slot)
    (hhomes : ∀ op ∈ ops, ∀ v ∈ op.defines, homeOf homes' v = homeOf homes v)
    (hinner : ∀ op ∈ ops, ∀ c ∈ op.nested, ∀ n, inner c n → inner' c n) :
    HousedFrom b counts homes' inner' ops slot := by
  induction ops generalizing slot with
  | nil => trivial
  | cons op rest ih =>
    obtain ⟨hdefines, hnested, hrest⟩ := h
    have hop := hhomes op (.head ..)
    rw [HousedFrom, taken_congr hop]
    refine ⟨fun v hv => (hop v hv).trans (hdefines v hv), fun c hc => ?_, ?_⟩
    · exact hinner op (.head ..) c hc _ (hnested c hc)
    · exact ih hrest (fun o ho => hhomes o (.tail _ ho))
        fun o ho => hinner o (.tail _ ho)

theorem Housed.congr (h : Housed b counts homes depth s slot)
    (hhomes : ∀ v ∈ b.valuesIn depth s, homeOf homes' v = homeOf homes v) :
    Housed b counts homes' depth s slot := by
  induction depth generalizing s slot with
  | zero => trivial
  | succ depth ih =>
    have hmem : ∀ op ∈ b.operations s, ∀ v ∈ op.defines ++ op.nested.flatMap (b.valuesIn depth),
        v ∈ b.valuesIn (depth + 1) s := fun op hop v hv => mem_flatMap.mpr ⟨op, hop, hv⟩
    refine HousedFrom.congr h (fun op hop v hv => ?_) fun op hop c hc n hn => ih hn fun v hv => ?_
    · exact hhomes v (hmem op hop v (mem_append_left _ hv))
    · exact hhomes v (hmem op hop v (mem_append_right _ (mem_flatMap.mpr ⟨c, hc, hv⟩)))

/-- What a walk over a part of the body changes: homes of some values, and no slots are
taken for good. -/
structure Walks (a a' : Allocation) (values : List Nat) : Prop where
  size : a'.homes.size = a.homes.size
  same : ∀ v, v ∉ values → homeOf a'.homes v = homeOf a.homes v

theorem Walks.refl (a : Allocation) (values : List Nat) : Walks a a values :=
  ⟨rfl, fun _ _ => rfl⟩

theorem Walks.trans {a'' : Allocation} {vs vs' : List Nat} (h : Walks a a' vs)
    (h' : Walks a' a'' vs') : Walks a a'' (vs ++ vs') where
  size := h'.size.trans h.size
  same v hv := by
    rw [mem_append, not_or] at hv
    exact (h'.same v hv.2).trans (h.same v hv.1)

theorem Settles.walks {next : Option Operation} (h : Settles b counts op next a a') :
    Walks a a' op.defines :=
  ⟨h.size, fun v hv => by rw [homeOf, h.same v hv, homeOf]⟩

def Trusted (b : Body) (counts : Array Nat) (depth s : Nat) : Prop :=
  ∀ c ∈ b.owned s, ∀ a : Allocation, a.homes.size = b.values.size →
    Walks a (scope b counts depth c a) (b.valuesIn depth c) ∧
      (scope b counts depth c a).nextSlot = a.nextSlot ∧
      Housed b counts (scope b counts depth c a).homes depth c a.nextSlot

theorem nested_housed (hb : b.Sound) (htrust : Trusted b counts depth s) (cs : List Nat)
    (hcs : ∀ c ∈ cs, c ∈ b.owned s) (hnodup : cs.Nodup) (a : Allocation)
    (hsize : a.homes.size = b.values.size) :
    let a' := cs.foldl (fun a c => scope b counts depth c a) a
    Walks a a' (cs.flatMap (b.valuesIn depth)) ∧ a'.nextSlot = a.nextSlot ∧
      ∀ c ∈ cs, Housed b counts a'.homes depth c a.nextSlot := by
  induction cs generalizing a with
  | nil => exact ⟨.refl a _, rfl, fun _ h => by cases h⟩
  | cons c cs ih =>
    obtain ⟨hnotin, hnodup⟩ := nodup_cons.mp hnodup
    have hc := hcs c (.head ..)
    obtain ⟨hwalk, hnext, hhoused⟩ := htrust c hc a hsize
    obtain ⟨hwalk', hnext', hhoused'⟩ := ih (fun d hd => hcs d (.tail _ hd)) hnodup
      (scope b counts depth c a) (hwalk.size.trans hsize)
    refine ⟨hwalk.trans hwalk', hnext'.trans hnext, fun d hd => ?_⟩
    rcases mem_cons.mp hd with rfl | hd
    · -- The scopes behind it have other values.
      refine hhoused.congr fun v hv => hwalk'.same v fun hmem => ?_
      obtain ⟨e, he, hve⟩ := mem_flatMap.mp hmem
      have hne : d ≠ e := fun heq => hnotin (heq ▸ he)
      exact valuesIn_apart hb hc (hcs e (.tail _ he)) hne hv hve
    · rw [← hnext]
      exact hhoused' d hd

theorem rest_apart (hb : b.Sound) {rest : List Operation} (hops : b.operations s = l1 ++ op :: rest)
    {v : Nat} (hv : v ∈ op.defines ++ op.nested.flatMap (b.valuesIn depth)) :
    v ∉ rest.flatMap fun o => o.defines ++ o.nested.flatMap (b.valuesIn depth) := by
  have hmem : op ∈ b.operations s := by rw [hops]; simp
  have hrest : ∀ o ∈ rest, o ∈ b.operations s := fun o ho => by rw [hops]; simp [ho]
  have hdefines := hb.defines_nodup s
  have howned := hb.owned_nodup s
  rw [defines, hops, flatMap_append, flatMap_cons] at hdefines
  rw [owned, hops, flatMap_append, flatMap_cons] at howned
  have hdisj := (nodup_append.mp (nodup_append.mp hdefines).2.1).2.2
  have hdisj' := (nodup_append.mp (nodup_append.mp howned).2.1).2.2
  intro hv'
  obtain ⟨o, ho, hv'⟩ := mem_flatMap.mp hv'
  have hin : ∀ {o' : Operation}, o' ∈ b.operations s → v ∈ o'.defines → v ∈ b.defines s :=
    fun ho' h => mem_flatMap.mpr ⟨_, ho', h⟩
  rcases mem_append.mp hv with hv | hv <;> rcases mem_append.mp hv' with hv' | hv'
  · exact hdisj v hv v (mem_flatMap.mpr ⟨o, ho, hv'⟩) rfl
  · obtain ⟨c, hc, hvc⟩ := mem_flatMap.mp hv'
    exact valuesIn_inner hb (mem_owned (hrest o ho) (mem_owned_of_nested hc)) hvc
      (hin hmem hv)
  · obtain ⟨c, hc, hvc⟩ := mem_flatMap.mp hv
    exact valuesIn_inner hb (mem_owned hmem (mem_owned_of_nested hc)) hvc
      (hin (hrest o ho) hv')
  · obtain ⟨c, hc, hvc⟩ := mem_flatMap.mp hv
    obtain ⟨d, hd, hvd⟩ := mem_flatMap.mp hv'
    have hne : c ≠ d := hdisj' c (mem_owned_of_nested hc) d
      (mem_flatMap.mpr ⟨o, ho, mem_owned_of_nested hd⟩)
    exact valuesIn_apart hb (mem_owned hmem (mem_owned_of_nested hc))
      (mem_owned (hrest o ho) (mem_owned_of_nested hd)) hne hvc hvd

theorem operations_housed (hb : b.Sound) (htrust : Trusted b counts depth s) {ops : List Operation}
    (hops : b.operations s = l1 ++ ops) (a : Allocation) (hsize : a.homes.size = b.values.size) :
    let a' := operations b counts (scope b counts depth) ops a
    Walks a a' (ops.flatMap fun op => op.defines ++ op.nested.flatMap (b.valuesIn depth)) ∧
      HousedFrom b counts a'.homes (Housed b counts a'.homes depth) ops a.nextSlot := by
  induction ops generalizing l1 a with
  | nil => exact ⟨.refl a _, trivial⟩
  | cons op rest ih =>
    intro a'
    have hmem : op ∈ b.operations s := by rw [hops]; simp
    have hsettles : Settles b counts op rest.head? a (a.operation b counts op rest.head?) :=
      settles_operation (hb.fits hmem) a
    have hnodup : op.nested.Nodup := by
      have h := hb.owned_nodup s
      rw [owned, hops, flatMap_append, flatMap_cons] at h
      exact (nodup_append.mp (nodup_append.mp (nodup_append.mp h).2.1).1).2.1
    obtain ⟨hwalk, hnext, hhoused⟩ := nested_housed hb htrust op.nested
      (fun c hc => mem_owned hmem (mem_owned_of_nested hc)) hnodup
      (a.operation b counts op rest.head?) (hsettles.size.trans hsize)
    have hhere := hsettles.walks.trans hwalk
    have hsplit : b.operations s = (l1 ++ [op]) ++ rest := by rw [hops]; simp
    obtain ⟨hwalk', hhoused'⟩ := ih hsplit _ (hhere.size.trans hsize)
    -- What comes later leaves the values of the operation, and those inside it, alone.
    have hlater : ∀ v ∈ op.defines ++ op.nested.flatMap (b.valuesIn depth),
        homeOf a'.homes v = homeOf (op.nested.foldl (fun a c => scope b counts depth c a)
          (a.operation b counts op rest.head?)).homes v :=
      fun v hv => hwalk'.same v (rest_apart hb hops hv)
    have hhome : ∀ v ∈ op.defines,
        homeOf a'.homes v = given counts op rest.head? a.nextSlot v := by
      intro v hv
      have hin : v ∈ b.defines s := mem_flatMap.mpr ⟨op, hmem, hv⟩
      rw [hlater v (mem_append_left _ hv), hwalk.same v fun h => ?_, homeOf,
        hsettles.home v hv (hsize ▸ defines_lt hb hin), Option.getD_some]
      obtain ⟨c, hc, hvc⟩ := mem_flatMap.mp h
      exact valuesIn_inner hb (mem_owned hmem (mem_owned_of_nested hc)) hvc hin
    have htaken : (a.operation b counts op rest.head?).nextSlot =
        a.nextSlot + taken b a'.homes op := by
      rw [hsettles.nextSlot, taken, wordsOf_congr hhome]
    refine ⟨hhere.trans hwalk', hhome, fun c hc => ?_, ?_⟩
    · rw [← htaken]
      exact (hhoused c hc).congr fun v hv => hlater v
        (mem_append_right _ (mem_flatMap.mpr ⟨c, hc, hv⟩))
    · rw [← htaken, ← hnext]
      exact hhoused'

/-- The walk of a scope gives every value in it its home and frees the slots again. -/
theorem scope_housed (hb : b.Sound) (depth s : Nat) (a : Allocation)
    (hsize : a.homes.size = b.values.size) :
    Walks a (scope b counts depth s a) (b.valuesIn depth s) ∧
      (scope b counts depth s a).nextSlot = a.nextSlot ∧
      Housed b counts (scope b counts depth s a).homes depth s a.nextSlot := by
  induction depth generalizing s a with
  | zero => exact ⟨.refl a _, rfl, trivial⟩
  | succ depth ih =>
    obtain ⟨hwalk, hhoused⟩ := operations_housed hb (fun c _ a ha => ih c a ha)
      (List.nil_append (b.operations s)).symm a hsize
    exact ⟨⟨hwalk.size, hwalk.same⟩, rfl, hhoused⟩

theorem HousedFrom.split {inner : Nat → Nat → Prop} {l2 : List Operation}
    (h : HousedFrom b counts homes inner (l1 ++ op :: l2) slot) :
    ∃ n, HousedFrom b counts homes inner (op :: l2) n := by
  induction l1 generalizing slot with
  | nil => exact ⟨slot, h⟩
  | cons o l1 ih => exact ih h.2.2

end Allocation

namespace Body

open Allocation

variable {b : Body} {s t v : Nat}

theorem size_start (b : Body) : (Allocation.start b).homes.size = b.values.size :=
  Array.size_map ..

theorem housed (hb : b.Sound) : Housed b (reads b) b.allocate.homes b.scopes.size 0 b.firstFree :=
  (scope_housed hb b.scopes.size 0 (.start b) (size_start b)).2.2

/-! ## Homes of values -/

/-- A value that can be read everywhere keeps the home it has from the start. -/
theorem home_lasting (hb : b.Sound) (hinfo : b.values[v]? = some info)
    (howner : info.owner = none) : homeOf b.allocate.homes v = info.origin.home := by
  have hwalk : Walks (.start b) b.allocate (b.valuesIn b.scopes.size 0) :=
    (scope_housed hb b.scopes.size 0 (.start b) (size_start b)).1
  rw [hwalk.same v fun hv => ?_]
  · simp [homeOf, Allocation.start, hinfo]
  · obtain ⟨t, _, hv⟩ := mem_valuesIn hv
    rw [owner_of_defines hb hv hinfo] at howner
    cases howner

variable {op : Operation} {l1 l2 : List Operation}

section

variable (hb : b.Sound)
include hb

theorem isFrame_of_mem_frames (hop : op ∈ b.operations s) (ht : t ∈ op.frames) :
    (b.kindOf t).isFrame = true := by
  have hfits := hb.fits hop
  cases op with
  | tryCatch statement | switch statement =>
    cases mem_singleton.mp ht
    rw [hfits.frame]
    rfl
  | _ => cases ht

theorem operations_frame (hop : op ∈ b.operations s)
    (ht : t ∈ op.frames) : b.operations t = [] := hb.frames (isFrame_of_mem_frames hb hop ht)

theorem housed_region (h : b.Region 0 t) :
    ∃ depth slot, b.scopes.size ≤ t + depth ∧
      Housed b (reads b) b.allocate.homes depth t slot := by
  induction h with
  | refl => exact ⟨b.scopes.size, b.firstFree, Nat.le_add_left .., housed hb⟩
  | @step t c _ hc ih =>
    obtain ⟨depth, slot, hdepth, hhoused⟩ := ih
    have hlt := hb.owned_gt hc
    have hsize := hb.owned_lt hc
    obtain ⟨op, hop, hc⟩ := mem_flatMap.mp hc
    obtain ⟨l1, l2, hops⟩ := append_of_mem hop
    rcases mem_frames_or_nested hc with hframe | hnested
    · refine ⟨b.scopes.size + 1, 0, by omega, ?_⟩
      rw [Housed, operations_frame hb hop hframe]
      trivial
    · cases depth with
      | zero => omega
      | succ depth =>
        rw [Housed, hops] at hhoused
        obtain ⟨n, hat⟩ := hhoused.split
        exact ⟨depth, _, by omega, hat.2.1 c hnested⟩

theorem home_defined (h : b.Region 0 t)
    (hops : b.operations t = l1 ++ op :: l2) (hv : v ∈ op.defines) :
    ∃ slot, homeOf b.allocate.homes v = given (reads b) op l2.head? slot v := by
  obtain ⟨depth, slot, hdepth, hhoused⟩ := housed_region hb h
  have hop : op ∈ b.operations t := by rw [hops]; simp
  have hlt := lt_size_of_mem_operations hop
  cases depth with
  | zero => omega
  | succ depth =>
    rw [Housed, hops] at hhoused
    obtain ⟨n, hat⟩ := hhoused.split
    exact ⟨n, hat.1 v hv⟩

theorem Region.of_within (h : b.Region 0 t) (hw : b.Within s t) : b.Region 0 s := by
  induction h generalizing s with
  | refl =>
    cases Nat.le_zero.mp (hw.le hb.descends)
    exact .refl
  | step h hc ih =>
    obtain ⟨op, hop, hc⟩ := mem_flatMap.mp hc
    rcases (nests hb hop hc).within hc hw with hmem | hw
    · exact .step h (mem_owned hop hmem)
    · exact ih hw

theorem Visible.region (h : b.Visible s known v) (hs : b.Region 0 s)
    (hinfo : b.values[v]? = some info) (howner : info.owner = some t) : b.Region 0 t := by
  obtain ⟨info', hinfo', hown⟩ := h
  rw [hinfo] at hinfo'
  cases hinfo'
  rcases hown with hnone | ⟨hself, _⟩ | ⟨c, owner, hother, hc, hparent, _⟩
  · rw [hnone] at howner
    cases howner
  · rw [hself] at howner
    cases howner
    exact hs
  · rw [hother] at howner
    cases howner
    exact hs.of_within hb ((Within.of_parent hparent).trans hc)

end

theorem mem_allReads (hop : op ∈ b.operations s)
    (hv : v ∈ op.operands.map Operand.value) : v ∈ b.allReads := by
  have hlt := lt_size_of_mem_operations hop
  have hget := Array.getElem?_eq_getElem hlt
  rw [operations, hget] at hop
  exact mem_flatMap.mpr ⟨_, Array.getElem_mem_toList hlt, mem_flatMap.mpr ⟨op, hop, hv⟩⟩

theorem exists_of_mem_declared (hv : v ∈ op.declared) :
    ∃ operands result, op = .simple (.store v true) operands result := by
  unfold Operation.declared at hv
  split at hv
  · cases mem_singleton.mp hv
    exact ⟨_, _, rfl⟩
  · cases hv

theorem declared_or_result (hv : v ∈ op.defines) :
    v ∈ op.declared ∨ ∃ action operands, op = .simple action operands (some v) := by
  cases op with
  | simple action operands result =>
    have hresult : v ∈ result.toList →
        ∃ act os, Operation.simple action operands result = .simple act os (some v) := by
      intro h
      cases Option.mem_toList.mp h
      exact ⟨action, operands, rfl⟩
    cases action with
    | store var declares =>
      cases declares with
      | true =>
        rcases mem_cons.mp hv with rfl | h
        · exact .inl (.head _)
        · exact .inr (hresult h)
      | false => exact .inr (hresult hv)
    | _ => exact .inr (hresult hv)
  | _ => cases hv

section

variable (hb : b.Sound) (hs : b.Region 0 s)
include hb hs

theorem Visible.source (hvisible : b.Visible s known v)
    (hinfo : b.values[v]? = some info) (howner : info.owner = some t) :
    b.Region 0 t ∧ ∃ l1 op l2, b.operations t = l1 ++ op :: l2 ∧ v ∈ op.defines := by
  refine ⟨hvisible.region hb hs hinfo howner, ?_⟩
  rcases hb.defined hinfo howner with hdef | hpending
  · obtain ⟨op, hop, hdef⟩ := mem_flatMap.mp hdef
    obtain ⟨l1, l2, hops⟩ := append_of_mem hop
    exact ⟨l1, op, l2, hops, hdef⟩
  · cases hpending

theorem home_read
    (hops : b.operations s = l1 ++ op :: l2) (hv : v ∈ op.operands.map Operand.value) :
    homeOf b.allocate.homes v ≠ .nowhere := by
  have hop : op ∈ b.operations s := by rw [hops]; simp
  have hvisible := hb.visible hops v (mem_append_left _ hv)
  have ⟨info, hinfo, _⟩ := hvisible
  cases howner : info.owner with
  | none =>
    rw [home_lasting hb hinfo howner]
    rcases hb.lasting hinfo howner with ⟨slot, horigin⟩ | ⟨l, horigin, _⟩ <;> rw [horigin] <;>
      exact nofun
  | some t =>
    obtain ⟨ht, m1, op', m2, hops', hdef⟩ := hvisible.source hb hs hinfo howner
    obtain ⟨slot, hhome⟩ := home_defined hb ht hops' hdef
    have hcount : (reads b)[v]?.getD 0 ≠ 0 := by
      rw [reads_eq b (Array.getElem?_eq_some_iff.mp hinfo).1]
      exact Nat.ne_of_gt (count_pos_iff.mpr (mem_allReads hop hv))
    rw [hhome, given, if_neg hcount]
    split
    · exact nofun
    · split <;> exact nofun

theorem home_variable (hvisible : b.Visible s known v) (horigin : b.HasOrigin v .variable) :
    ∃ slot, homeOf b.allocate.homes v = .slot slot := by
  obtain ⟨info, hinfo, horigin⟩ := horigin
  cases howner : info.owner with
  | none =>
    rcases hb.lasting hinfo howner with ⟨slot, h⟩ | ⟨l, h, _⟩ <;>
      (rw [horigin] at h; cases h)
  | some t =>
    obtain ⟨ht, m1, op', m2, hops', hdef⟩ := hvisible.source hb hs hinfo howner
    obtain ⟨slot, hhome⟩ := home_defined hb ht hops' hdef
    rcases declared_or_result hdef with hdecl | ⟨action, operands, rfl⟩
    · exact ⟨slot, by rw [hhome, given, if_pos hdecl]⟩
    · have hop' : .simple action operands (some v) ∈ b.operations t := by rw [hops']; simp
      obtain ⟨info', hinfo', hresult⟩ := hb.results hop'
      rw [hinfo] at hinfo'
      cases hinfo'
      rw [horigin] at hresult
      cases hresult

end

theorem flatMap_unique {α : Type} {f : α → List Nat} {l1 l2 m1 m2 : List α} {x y : α}
    (hcount : ((l1 ++ x :: l2).flatMap f).count v = 1) (hsplit : l1 ++ x :: l2 = m1 ++ y :: m2)
    (hx : v ∈ f x) (hy : v ∈ f y) : l1 = m1 ∧ x = y ∧ l2 = m2 ∧ (f x).count v = 1 := by
  have hx' := count_pos_iff.mpr hx
  have hy' := count_pos_iff.mpr hy
  -- Two places are too many.
  have htwo : ∀ {k1 k2 k3 : List α} {x y : α}, 0 < (f x).count v → 0 < (f y).count v →
      ((k1 ++ x :: (k2 ++ y :: k3)).flatMap f).count v ≠ 1 := by
    intro k1 k2 k3 x y hx hy h
    simp only [flatMap_append, flatMap_cons, count_append] at h
    omega
  rcases split_cons hsplit with ⟨rfl, rfl, rfl⟩ | ⟨k, _, rfl⟩ | ⟨k, _, rfl⟩
  · refine ⟨rfl, rfl, rfl, ?_⟩
    simp only [flatMap_append, flatMap_cons, count_append] at hcount
    omega
  · rw [hsplit] at hcount
    exact absurd hcount (htwo hy' hx')
  · exact absurd hcount (htwo hx' hy')

/-! ## Values on the stack -/

theorem reader_unique (hcount : b.allReads.count v = 1) {l2 m1 m2 : List Operation}
    {op op' : Operation} (hops : b.operations s = l1 ++ op :: l2)
    (hv : v ∈ op.operands.map Operand.value) (hops' : b.operations t = m1 ++ op' :: m2)
    (hv' : v ∈ op'.operands.map Operand.value) :
    s = t ∧ l1 = m1 ∧ op = op' ∧ (op.operands.map Operand.value).count v = 1 := by
  -- A scope in the list of all scopes, and its operations.
  have hscope : ∀ {s : Nat} {l1 l2 : List Operation} {op : Operation},
      b.operations s = l1 ++ op :: l2 → ∃ sc k1 k2, b.scopes.toList = k1 ++ sc :: k2 ∧
        k1.length = s ∧ sc.operations.toList = l1 ++ op :: l2 := by
    intro s l1 l2 op hops
    have hlt : s < b.scopes.size :=
      lt_size_of_mem_operations (show op ∈ b.operations s by rw [hops]; simp)
    refine ⟨b.scopes[s], b.scopes.toList.take s, b.scopes.toList.drop (s + 1), ?_, ?_, ?_⟩
    · rw [← Array.getElem_toList, getElem_cons_drop, take_append_drop]
    · simp [Nat.le_of_lt hlt]
    · rw [← hops, operations, Array.getElem?_eq_getElem hlt]
  obtain ⟨sc, k1, k2, hsplit, rfl, hsc⟩ := hscope hops
  obtain ⟨sc', k1', k2', hsplit', rfl, hsc'⟩ := hscope hops'
  have hmem : ∀ {sc : Scope} {l1 l2 : List Operation} {op : Operation},
      sc.operations.toList = l1 ++ op :: l2 → v ∈ op.operands.map Operand.value →
      v ∈ sc.operations.toList.flatMap fun op => op.operands.map Operand.value := by
    intro sc l1 l2 op hsc hv
    exact mem_flatMap.mpr ⟨op, by rw [hsc]; simp, hv⟩
  rw [allReads, hsplit] at hcount
  obtain ⟨rfl, rfl, _, hone⟩ := flatMap_unique hcount (hsplit.symm.trans hsplit') (hmem hsc hv)
    (hmem hsc' hv')
  rw [hsc] at hone
  obtain ⟨rfl, rfl, _, hlast⟩ := flatMap_unique hone (hsc.symm.trans hsc') hv hv'
  exact ⟨rfl, rfl, rfl, hlast⟩

theorem mem_operands_of_top (h : op.top? = some v) : v ∈ op.operands.map Operand.value := by
  cases op with
  | simple action operands result =>
    have hhead : operands.head?.map Operand.value = some v → v ∈ operands.map Operand.value := by
      intro h
      cases operands with
      | nil => cases h
      | cons o os =>
        cases h
        exact .head ..
    cases action with
    | new constructor => cases h
    | caught => cases h
    | _ => exact hhead h
  | ret value cleanups =>
    cases value with
    | none => cases h
    | some operand =>
      cases cleanups with
      | nil =>
        cases h
        exact .head ..
      | cons cleanup rest => cases h
  | switch statement =>
    obtain ⟨kind, selector, frame, arms, fallthrough⟩ := statement
    cases kind with
    | int =>
      cases h
      exact .head ..
    | _ => cases h
  | branch cond whenTrue whenFalse =>
    cases h
    exact .head ..
  | exitUnless cond target =>
    cases h
    exact .head ..
  | throw value =>
    cases h
    exact .head ..
  | _ => cases h

/-- A result stays on the stack if the next operation takes it from there. -/
theorem home_stack (hb : b.Sound) (ht : b.Region 0 t)
    (hops : b.operations t = l1 ++ op :: l2) (hv : v ∈ op.defines)
    (hhome : homeOf b.allocate.homes v = .stack) :
    (∃ action operands, op = .simple action operands (some v)) ∧ b.allReads.count v = 1 ∧
      l2.head?.bind Operation.top? = some v := by
  obtain ⟨slot, hgiven⟩ := home_defined hb ht hops hv
  rw [hhome, given] at hgiven
  have hlt : v < b.values.size :=
    defines_lt hb (mem_flatMap.mpr ⟨op, by rw [hops]; simp, hv⟩)
  split at hgiven
  · cases hgiven
  · next hdeclared =>
    split at hgiven
    · cases hgiven
    · split at hgiven
      · next h =>
        rw [reads_eq b hlt] at h
        exact ⟨(declared_or_result hv).resolve_left hdeclared, h⟩
      · cases hgiven

/-- Whoever reads a value from the stack does it first, right behind the operation that
yields it. -/
theorem stack_read (hb : b.Sound) (hs : b.Region 0 s)
    (hops : b.operations s = l1 ++ op :: l2) (hv : v ∈ op.operands.map Operand.value)
    (hhome : homeOf b.allocate.homes v = .stack) :
    op.top? = some v ∧ (op.operands.map Operand.value).count v = 1 ∧
      ∃ l0 action operands, l1 = l0 ++ [.simple action operands (some v)] := by
  have hvisible := hb.visible hops v (mem_append_left _ hv)
  have ⟨info, hinfo, _⟩ := hvisible
  cases howner : info.owner with
  | none =>
    rw [home_lasting hb hinfo howner] at hhome
    rcases hb.lasting hinfo howner with ⟨slot, horigin⟩ | ⟨l, horigin, _⟩ <;>
      (rw [horigin] at hhome; cases hhome)
  | some t =>
    obtain ⟨ht, m1, op', m2, hops', hdef⟩ := hvisible.source hb hs hinfo howner
    obtain ⟨⟨action, operands, rfl⟩, hcount, htop⟩ := home_stack hb ht hops' hdef hhome
    cases m2 with
    | nil => cases htop
    | cons next m2 =>
      have htop : next.top? = some v := htop
      have hsplit : b.operations t = (m1 ++ [.simple action operands (some v)]) ++ next :: m2 := by
        rw [hops']
        simp
      obtain ⟨rfl, rfl, rfl, hone⟩ :=
        reader_unique hcount hops hv hsplit (mem_operands_of_top htop)
      exact ⟨htop, hone, m1, action, operands, rfl⟩

end Body
end ClassAssembler
