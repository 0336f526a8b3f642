import ClassAssembler.Proofs.Layout.Running
import ClassAssembler.Proofs.Layout.Stretches
import ClassAssembler.Proofs.Switch.Selection

/-!
# Switches on integers

A switch on integers is a table of labels, or a list of keys with labels to search in.
-/

namespace ClassAssembler

open List Lay Body

theorem lookup_eq_some_iff_mem {α β : Type} [BEq α] [LawfulBEq α] {ps : List (α × β)}
    (h : (ps.map Prod.fst).Nodup) {a : α} {c : β} : ps.lookup a = some c ↔ (a, c) ∈ ps := by
  induction ps with
  | nil => simp
  | cons p ps ih =>
    obtain ⟨a', c'⟩ := p
    obtain ⟨hnot, hnodup⟩ := nodup_cons.mp h
    rw [lookup_cons, mem_cons]
    by_cases heq : a = a'
    · subst heq
      rw [beq_self_eq_true]
      have hnone : (a, c) ∉ ps := fun hmem => hnot (mem_map.mpr ⟨_, hmem, rfl⟩)
      simp [hnone, eq_comm]
    · rw [beq_false_of_ne heq, ih hnodup]
      simp [heq]

theorem sorted_mergeSort {β : Type} (ps : List (Int32 × β)) :
    (ps.mergeSort fun p q => decide (p.1 ≤ q.1)).Pairwise fun p q => p.1 ≤ q.1 := by
  refine (pairwise_mergeSort (fun p q r hpq hqr => ?_) (fun p q => ?_) ps).imp
    fun h => of_decide_eq_true h
  · exact decide_eq_true (Int32.le_trans (of_decide_eq_true hpq) (of_decide_eq_true hqr))
  · rw [Bool.or_eq_true, decide_eq_true_iff, decide_eq_true_iff]
    exact Int32.le_total p.1 q.1

namespace Lay

variable {b : Body} {key? : CaseKey → Option Int32} {arms : List Arm}

theorem mem_intTargets {v : Int32} {l : Label} : (v, l) ∈ intTargets b key? arms ↔
    ∃ arm ∈ arms, (∃ key ∈ arm.keys, key? key = some v) ∧ l = entryOf b arm.scope := by
  rw [intTargets, mem_mergeSort, mem_flatMap]
  refine exists_congr fun arm => and_congr_right fun _ => ?_
  simp only [mem_map, mem_filterMap, Prod.mk.injEq]
  constructor
  · rintro ⟨_, ⟨key, hkey, hv⟩, rfl, rfl⟩
    exact ⟨⟨key, hkey, hv⟩, rfl⟩
  · rintro ⟨⟨key, hkey, hv⟩, rfl⟩
    exact ⟨v, ⟨key, hkey, hv⟩, rfl, rfl⟩

theorem keys_intTargets : ((intTargets b key? arms).map Prod.fst).Perm
    ((arms.flatMap Arm.keys).filterMap key?) := by
  refine ((mergeSort_perm _ _).map Prod.fst).trans (.of_eq ?_)
  induction arms with
  | nil => rfl
  | cons arm arms ih =>
    rw [flatMap_cons, List.map_append, ih, flatMap_cons, filterMap_append,
      map_map]
    exact congrArg (· ++ _) (List.map_id _)

theorem nodup_intTargets (h : (arms.flatMap Arm.keys).Nodup)
    (hkey : ∀ key key' v, key? key = some v → key? key' = some v → key = key') :
    ((intTargets b key? arms).map Prod.fst).Nodup := by
  refine keys_intTargets.nodup_iff.mpr (pairwise_filterMap.mpr (h.imp ?_))
  rintro key key' hne v hv v' hv' rfl
  exact hne (hkey key key' v hv hv')

theorem ascending_intTargets (h : ((intTargets b key? arms).map Prod.fst).Nodup) :
    ((intTargets b key? arms).map Prod.fst).Pairwise (· < ·) := by
  have hsorted : (intTargets b key? arms).Pairwise fun p q => p.1 ≤ q.1 := sorted_mergeSort _
  refine pairwise_map.mpr ((hsorted.and (pairwise_map.mp h)).imp ?_)
  rintro p q ⟨hle, hne⟩
  exact Int32.lt_of_le_of_ne hle hne

theorem lookup_intTargets {subject : Int32 → Subject}
    (hnodup : ((intTargets b key? arms).map Prod.fst).Nodup)
    (hkey : ∀ key v, key? key = some v ↔ key.means (subject v)) (v : Int32) :
    (intTargets b key? arms).lookup v =
      (arms.find? (·.answers (subject v))).map fun arm => entryOf b arm.scope := by
  cases hfind : arms.find? (·.answers (subject v)) with
  | some arm =>
    have hanswers := find?_some hfind
    obtain ⟨key, hmem, hmeans⟩ := any_eq_true.mp hanswers
    exact (lookup_eq_some_iff_mem hnodup).mpr (mem_intTargets.mpr
      ⟨arm, mem_of_find?_eq_some hfind, ⟨key, hmem, (hkey key v).mpr hmeans⟩, rfl⟩)
  | none =>
    refine lookup_eq_none_iff.mpr fun p hp => bne_iff_ne.mpr ?_
    rintro rfl
    obtain ⟨arm, harm, ⟨key, hmem, hv⟩, _⟩ := mem_intTargets.mp (show (p.1, p.2) ∈ _ from hp)
    exact find?_eq_none.mp hfind arm harm
      (any_eq_true.mpr ⟨key, hmem, (hkey key p.1).mp hv⟩)

section range

variable {targets : List (Int32 × Label)} {low high : Int32} {l l' : Label}

theorem head_le (hsorted : (targets.map Prod.fst).Pairwise (· < ·))
    (hhead : targets.head? = some (low, l)) {p : Int32 × Label} (hp : p ∈ targets) : low ≤ p.1 := by
  obtain ⟨rest, rfl⟩ := head?_eq_some_iff.mp hhead
  rcases mem_cons.mp hp with rfl | hp
  · exact Int32.le_refl _
  · exact Int32.le_of_lt ((pairwise_cons.mp hsorted).1 _ (mem_map_of_mem hp))

theorem le_getLast (hsorted : (targets.map Prod.fst).Pairwise (· < ·))
    (hlast : targets.getLast? = some (high, l')) {p : Int32 × Label} (hp : p ∈ targets) :
    p.1 ≤ high := by
  obtain ⟨rest, rfl⟩ := getLast?_eq_some_iff.mp hlast
  rw [List.map_append] at hsorted
  rcases mem_append.mp hp with hp | hp
  · exact Int32.le_of_lt ((pairwise_append.mp hsorted).2.2 _ (mem_map_of_mem hp) _
      (.head _))
  · cases mem_singleton.mp hp
    exact Int32.le_refl _

theorem toInt_add_ofNat (low high : Int32) {i : Nat} (h : low.toInt + i ≤ high.toInt) :
    (low + Int32.ofNat i).toInt = low.toInt + i := by
  have hlow := low.le_toInt
  have hhigh := high.toInt_lt
  have hsize : Int32.size = 4294967296 := rfl
  rw [Int32.toInt_add, Int32.toInt_ofNat', Int.add_bmod_bmod]
  exact Int.bmod_eq_of_le (by omega) (by omega)

theorem length_le_of_ascending {keys : List Int32} (h : keys.Pairwise (· < ·)) {bound : Int}
    (hbound : bound ≤ 2147483648) (hkeys : ∀ v ∈ keys, bound ≤ v.toInt) :
    (keys.length : Int) ≤ 2147483648 - bound := by
  induction keys generalizing bound with
  | nil => simpa using hbound
  | cons v keys ih =>
    obtain ⟨hlt, htail⟩ := pairwise_cons.mp h
    have hv := hkeys v mem_cons_self
    have hmax := v.toInt_lt
    have hrest : (keys.length : Int) ≤ 2147483648 - (v.toInt + 1) := ih htail (by omega) fun u hu =>
      Int32.lt_iff_toInt_lt.mp (hlt u hu)
    rw [length_cons]
    omega

end range

/-- A key goes where it was given to go to, whether in a table or in a list. -/
theorem select_intSwitch {targets : List (Int32 × Label)}
    (hsorted : (targets.map Prod.fst).Pairwise (· < ·)) (fallback : Label) (asTable : Bool)
    (v : Int32) : (intSwitch targets fallback asTable).select v =
      some ((targets.lookup v).getD fallback) := by
  unfold intSwitch
  split
  · next low l high l' hhead hlast =>
    dsimp only
    split
    · -- Outside the range of the table there is no key.
      have hmiss : ¬ (low ≤ v ∧ v ≤ high) → targets.lookup v = none := by
        intro h
        refine lookup_eq_none_iff.mpr fun p hp => bne_iff_ne.mpr ?_
        rintro rfl
        exact h ⟨head_le hsorted hhead hp, le_getLast hsorted hlast hp⟩
      rw [Branch.select]
      by_cases hlow : low ≤ v
      · rw [if_pos hlow]
        have hle := Int32.le_iff_toInt_le.mp hlow
        by_cases hhigh : v ≤ high
        · have hle' := Int32.le_iff_toInt_le.mp hhigh
          have hkey : low + Int32.ofNat (v.toInt - low.toInt).toNat = v :=
            Int32.toInt_inj.mp ((toInt_add_ofNat low high (by omega)).trans (by omega))
          rw [getElem?_map, getElem?_range (by omega), Option.map_some, hkey]
          rfl
        · have hgt := Int32.lt_iff_toInt_lt.mp (Int32.not_le.mp hhigh)
          rw [hmiss fun h => hhigh h.2, getElem?_eq_none (by simp; omega)]
      · rw [if_neg hlow, hmiss fun h => hlow h.1]
        rfl
    · rfl
  · next hnone =>
    cases targets with
    | nil => rfl
    | cons p targets => exact (hnone _ _ _ _ rfl (getLast?_eq_some_getLast (by simp))).elim

end Lay

/-- How labels are encoded: in a table if they fill at least half of it, and in a list otherwise. -/
def Encodes (labels : List Int32) : Branch → Prop
  | .tableSwitch _ low targets => ∃ high, low ∈ labels ∧ high ∈ labels ∧
      (∀ n ∈ labels, low ≤ n ∧ n ≤ high) ∧ (targets.length : Int) = high.toInt - low.toInt + 1 ∧
      targets.length ≤ Int32.size ∧ targets.length ≤ 2 * labels.length ∧
      ∀ i < targets.length, (low + Int32.ofNat i).toInt = low.toInt + i
  | .lookupSwitch _ targets => (targets.map Prod.fst).Pairwise (· < ·) ∧
      (targets.map Prod.fst).Perm labels ∧
      ∀ low ∈ labels, ∀ high ∈ labels, (∀ n ∈ labels, low ≤ n ∧ n ≤ high) →
        (2 * labels.length : Int) < high.toInt - low.toInt + 1
  | _ => False

theorem encodes_intSwitch {targets : List (Int32 × Label)} {labels : List Int32}
    (hsorted : (targets.map Prod.fst).Pairwise (· < ·))
      (hlabels : (targets.map Prod.fst).Perm labels)
    (fallback : Label) : Encodes labels (intSwitch targets fallback false) := by
  have hlength : targets.length = labels.length := by
    rw [← hlabels.length_eq, length_map]
  have hmem : ∀ {p}, p ∈ targets → p.1 ∈ labels := fun hp =>
    hlabels.mem_iff.mp (mem_map_of_mem hp)
  unfold intSwitch
  split
  · next low l high l' hhead hlast =>
    have hbounds : ∀ n ∈ labels, low ≤ n ∧ n ≤ high := by
      intro n hn
      obtain ⟨p, hp, rfl⟩ := mem_map.mp (hlabels.mem_iff.mpr hn)
      exact ⟨head_le hsorted hhead hp, le_getLast hsorted hlast hp⟩
    have hlow := hmem (mem_of_head? hhead)
    have hhigh := hmem (mem_of_getLast? hlast)
    have hle := Int32.le_iff_toInt_le.mp (hbounds low hlow).2
    have hmin := low.le_toInt
    have hmax := high.toInt_lt
    have hsize : Int32.size = 4294967296 := rfl
    dsimp only
    rw [Bool.false_or, hlength]
    split
    · next hdense =>
      rw [decide_eq_true_iff] at hdense
      simp only [Encodes, length_map, length_range]
      exact ⟨high, hlow, hhigh, hbounds, by omega, by omega, hdense, fun i hi =>
        toInt_add_ofNat low high (by omega)⟩
    · next hsparse =>
      rw [decide_eq_true_iff] at hsparse
      refine ⟨hsorted, hlabels, fun low' hlow' high' hhigh' hbounds' => ?_⟩
      -- The ends of the list are the least and the greatest label as well.
      have hlow'' := Int32.le_iff_toInt_le.mp (hbounds' low hlow).1
      have hhigh'' := Int32.le_iff_toInt_le.mp (hbounds' high hhigh).2
      omega
  · next hnone =>
    cases targets with
    | nil =>
      cases nil_perm.mp hlabels
      exact ⟨.nil, .nil, fun _ h => by cases h⟩
    | cons p targets =>
      exact (hnone _ _ _ _ rfl (getLast?_eq_some_getLast (by simp))).elim

def CaseKey.int? : CaseKey → Option Int32
  | int n => some n
  | _ => none

theorem CaseKey.int?_eq_some_iff (key : CaseKey) (v : Int32) :
    key.int? = some v ↔ key.means (.int v) := by
  cases key <;> simp [int?, means]

def CaseKey.index? : CaseKey → Option Int32
  | index n => some n
  | _ => none

theorem CaseKey.index?_eq_some_iff (key : CaseKey) (v : Int32) :
    key.index? = some v ↔ key.means (.index v) := by
  cases key <;> simp [index?, means]

section targets

variable {b : Body} {key? : CaseKey → Option Int32} {subject : Int32 → Subject}
  {S : SwitchStatement}

theorem Lay.distinct_intTargets (hkey : ∀ key v, key? key = some v ↔ key.means (subject v))
    (hnodup : (S.arms.flatMap Arm.keys).Nodup) : ((intTargets b key? S.arms).map Prod.fst).Nodup :=
  nodup_intTargets hnodup fun key key' v hv hv' =>
    CaseKey.means_inj ((hkey key v).mp hv) ((hkey key' v).mp hv')

theorem Lay.select_arm (hkey : ∀ key v, key? key = some v ↔ key.means (subject v))
    (hnodup : (S.arms.flatMap Arm.keys).Nodup) (asTable : Bool) (v : Int32) :
    (intSwitch (intTargets b key? S.arms) (fallback b S) asTable).select v =
      some (b.arrival S (S.arm? (subject v))) := by
  have hdistinct := distinct_intTargets (b := b) hkey hnodup
  rw [select_intSwitch (ascending_intTargets hdistinct), lookup_intTargets hdistinct hkey,
    arrival_arm?]

end targets

def SwitchStatement.intLabels (S : SwitchStatement) : List Int32 :=
  (S.arms.flatMap Arm.keys).filterMap CaseKey.int?

theorem Body.branch_mem_items {b : Body} (hb : b.Sound) {homes : Array Home} {layout : Layout}
    (hlay : b.layOut homes = .ok layout) {s : Nat} {op : Operation} (hs : b.Region 0 s)
    (hop : op ∈ b.operations s) {site : Site} {br : Branch}
    (hbr : ∀ inner status, Plot.Has (Plot.operation b homes inner s status op)
      (Plot.branch site br)) : .entry (.branch br) ∈ layout.items.toList := by
  obtain ⟨depth, status, n, _, hop⟩ := has_operation hb homes hs hop
  obtain ⟨m, hlies⟩ := hbr _ status n
  rcases b.layOut_eq homes with ⟨layout', hlay', hitems, _⟩ | ⟨fault, herror, _⟩
  · rw [hlay] at hlay'
    cases hlay'
    rw [hitems]
    exact mem_filterMap.mpr
      ⟨.branch br (some site), (hlies.trans hop).subset (.head _), rfl⟩
  · rw [hlay] at herror
    cases herror

theorem Body.exists_lies_switch {b : Body} {S : SwitchStatement} (hb : b.Sound)
    (homes : Array Home) {s : Nat} (hs : b.Region 0 s) (hS : .switch S ∈ b.operations s) :
    ∃ inner status n k, Machine.Lies (b.points homes) k
      (Plot.switch b homes inner s status S n).points := by
  obtain ⟨depth, status, n, _, hinfix⟩ := has_operation hb homes hs hS
  obtain ⟨k, hlies⟩ := Machine.Lies.of_infix hinfix
  exact ⟨_, status, n, k, hlies⟩

/-- A switch on integers goes to the arm with the integer among its labels, or to the arm for
everything else, or behind the switch. What is laid out for it encodes its labels,
  and is the first branch of the code
at a switch that control can come to. -/
theorem int_switch_selects {b b' : Body} (hb : b.Built) (hinit : b.completeInit = .ok b') {s : Nat}
    {S : SwitchStatement} (hs : b'.Region 0 s) (hS : .switch S ∈ b'.operations s)
    (hkind : S.kind = .int) :
    ∃ br, Encodes S.intLabels br ∧ S.intLabels.length ≤ Int32.size ∧
      (∀ v, ∃ arm?, S.Selects (.int v) arm? ∧ br.select v = some (b'.arrival S arm?)) ∧
      (∀ homes, dispatch b' homes S =
        load b' homes S.selector >>= fun _ => branch br) ∧
      (∀ homes layout, b'.layOut homes = .ok layout →
        .entry (.branch br) ∈ layout.items.toList) ∧
      ∀ code notice x, b.toCode = .ok (code, notice) →
        code.entries[x]? = some (.label (entryOf b' S.frame)) →
        Reach some code.entries code.ranges x → Recorder.FirstBranch code.entries x br := by
  obtain ⟨⟨table, hkeyed⟩, _⟩ := hb.keyed hinit s S hS
  have hsound := (hb.finished.completeInit hinit).sound
  have hsorted : ((intTargets b' CaseKey.int? S.arms).map Prod.fst).Pairwise (· < ·) :=
    ascending_intTargets (distinct_intTargets CaseKey.int?_eq_some_iff hkeyed.nodup)
  have hlabels : ((intTargets b' CaseKey.int? S.arms).map Prod.fst).Perm S.intLabels :=
    keys_intTargets
  refine ⟨intSwitch (intTargets b' CaseKey.int? S.arms) (fallback b' S) false,
    encodes_intSwitch hsorted hlabels _, ?_, fun v => ⟨S.arm? (.int v), hkeyed.selects _, ?_⟩,
      ?_, ?_, ?_⟩
  · have hlength : _ ≤ (2147483648 - -2147483648 : Int) :=
      length_le_of_ascending hsorted (by omega) fun v _ => v.le_toInt
    have hsize : Int32.size = 4294967296 := rfl
    rw [hlabels.length_eq] at hlength
    omega
  · exact select_arm CaseKey.int?_eq_some_iff hkeyed.nodup false v
  · intro homes
    rw [dispatch, hkind]
    rfl
  · intro homes layout hlay
    have hdispatch : ∀ kept, Plot.Has (Plot.dispatch b' homes ⟨s, none⟩ kept S)
        (Plot.branch ⟨s, none⟩
        (intSwitch (intTargets b' CaseKey.int? S.arms) (fallback b' S) false)) := by
      intro kept
      rw [Plot.dispatch, hkind]
      exact .right (.refl _)
    exact branch_mem_items hsound hlay hs hS fun inner status =>
      .left (.left (.right (hdispatch status.kept)))
  · intro code notice x hcode hx hreach
    obtain ⟨layout, _, hentries, hranges⟩ := toCode_kept hsound hinit hcode
    obtain ⟨inner, status, n, k, hlies⟩ := exists_lies_switch hsound b'.allocate.homes hs hS
    have hregular := regular hsound b'.allocate.homes
    rw [hentries] at hx
    rw [hentries, hranges] at hreach
    obtain ⟨i, hlabel, hreached, rfl⟩ := Recorder.exists_reached hregular hx hreach
    have hlies := hlies.left.left
    cases Point.stands_unique hregular.nodup hlabel (hlies.left.stands rfl)
    rw [hentries]
    rw [Plot.dispatch, hkind] at hlies
    exact Recorder.firstBranch_spot hregular hreached hlies
      fun p hp => (Plot.idle_load ⟨s, none⟩ S.selector n).2.2 p hp

def Build.sortOut : Build Unit Unit := do
  let first ← param 0
  switchInt 0 first do
    case [.int Int32.minValue] fun arm => returnVoid arm
    case [.int 3, .int Int32.maxValue] fun _ => pure ()
    defaultCase fun _ => pure ()

theorem Build.writes_sortOut : Writes Unit 0 Unit sortOut :=
  .bind (.call (.param 0)) fun first =>
    .switchInt first (.bind (.case _ fun _ => .call .returnVoid) fun _ =>
      .bind (.case _ fun _ => .pure ()) fun _ => .defaultCase fun _ => .pure ())

def SwitchStatement.sortOut : SwitchStatement where
  kind := .int
  selector := ⟨0, []⟩
  frame := 1
  arms := [⟨[.int Int32.minValue], false, 2⟩, ⟨[.int 3, .int Int32.maxValue], false, 3⟩,
    ⟨[], true, 4⟩]
  fallthrough := false

def Body.sortOutFrame : Body := ((sampleStart none).openScope (some 0) .switchFrame).2

def Body.sortOutFirst : Body :=
  (Build.after (Build.returnVoid 2) ⟨(sortOutFrame.openScope (some 1) .switchCase).2, ()⟩).body

def Body.sortOut : Body :=
  ((sortOutFirst.openScope (some 1) .switchCase).2.openScope (some 1) .switchDefault).2.push 0
    (.switch .sortOut)

theorem Build.run_sortOut : sortOut ⟨Body.sampleStart none, ()⟩ = .ok () ⟨Body.sortOut, ()⟩ := by
  obtain ⟨seen, hseen, hfirst⟩ := case_of_new [.int Int32.minValue] [.int Int32.minValue]
    (fun arm => returnVoid arm) sortOutFrame { kind := .int, table := none, frame := 1 } ()
    rfl (by decide) (by simp) rfl
  obtain ⟨seen', _, hsecond⟩ := case_of_new [.int 3, .int Int32.maxValue]
    [.int 3, .int Int32.maxValue] (fun _ => pure ()) sortOutFirst
    { kind := .int, table := none, frame := 1, seen := seen,
      arms := #[⟨[.int Int32.minValue], false, 2⟩] } () rfl (by decide)
        (by simp [hseen]; decide) rfl
  show switchOn 0 .int none ⟨0, []⟩ _ ⟨sampleStart none, ()⟩ = _
  exact (switchOn_of_ok ((bind_of_ok hfirst).trans ((bind_of_ok hsecond).trans rfl))).trans rfl

theorem int_switch_selects_sortOut :
    sortOut.Built ∧ .switch .sortOut ∈ sortOut.operations 0 ∧
      ∃ br, Encodes SwitchStatement.sortOut.intLabels br ∧
        ∀ v, ∃ arm?, SwitchStatement.sortOut.Selects (.int v) arm? ∧
          br.select v = some (Body.sortOut.arrival .sortOut arm?) := by
  have hbuilt : (Build.after Build.sortOut ⟨sampleStart none, ()⟩).body.Built :=
    .first (begins_sampleStart none) Build.writes_sortOut
  rw [Build.after_of_ok Build.run_sortOut] at hbuilt
  have hinit : sortOut.completeInit = .ok sortOut :=
    completeInit_of_called (by decide +kernel)
  have hmem : .switch .sortOut ∈ sortOut.operations 0 := by decide +kernel
  obtain ⟨br, hencodes, _, hselects, _⟩ := int_switch_selects hbuilt hinit .refl hmem rfl
  exact ⟨hbuilt, hmem, br, hencodes, hselects⟩

end ClassAssembler
