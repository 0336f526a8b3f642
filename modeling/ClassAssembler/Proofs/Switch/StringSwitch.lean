import ClassAssembler.Proofs.Switch.IntSwitch

/-!
# Switches on strings

A switch on strings goes by the hash code first.
-/

namespace ClassAssembler

open Body Plot Text Recorder

variable {b : Body} {S : SwitchStatement}

namespace Lay

section groups

variable {α β : Type} [DecidableEq α]

theorem groups_cons (a : α) (c : β) (pairs : List (α × β)) :
    groups pairs = [] ∧ groups ((a, c) :: pairs) = [(a, [c])] ∨
      ∃ key cs rest, groups pairs = (key, cs) :: rest ∧
        (a = key ∧ groups ((a, c) :: pairs) = (key, c :: cs) :: rest ∨
          a ≠ key ∧ groups ((a, c) :: pairs) = (a, [c]) :: groups pairs) := by
  cases hgroups : groups pairs with
  | nil =>
    refine .inl ⟨rfl, ?_⟩
    unfold groups at hgroups ⊢
    rw [List.foldr_cons, hgroups]
  | cons group rest =>
    refine .inr ⟨group.1, group.2, rest, rfl, ?_⟩
    rw [← hgroups]
    have hcons : groups ((a, c) :: pairs) =
        if a = group.1 then (group.1, c :: group.2) :: rest else (a, [c]) :: groups pairs := by
      unfold groups at hgroups ⊢
      rw [List.foldr_cons, hgroups]
    rw [hcons]
    by_cases h : a = group.1
    · exact .inl ⟨h, if_pos h⟩
    · exact .inr ⟨h, if_neg h⟩

theorem flatMap_groups (pairs : List (α × β)) :
    (groups pairs).flatMap (fun group => group.2.map (group.1, ·)) = pairs := by
  induction pairs with
  | nil => rfl
  | cons pair pairs ih =>
    rcases groups_cons pair.1 pair.2 pairs with ⟨hnil, h⟩ | ⟨key, cs, rest, hcons,
      ⟨heq, h⟩ | ⟨_, h⟩⟩
    · rw [hnil] at ih
      rw [h, ← ih]
      rfl
    · rw [hcons, List.flatMap_cons] at ih
      rw [h, List.flatMap_cons, List.map_cons, List.cons_append, ih, ← heq]
    · rw [h, List.flatMap_cons, ih]
      rfl

theorem ne_nil_of_mem_groups {pairs : List (α × β)} {group : α × List β}
    (h : group ∈ groups pairs) : group.2 ≠ [] := by
  induction pairs generalizing group with
  | nil => cases h
  | cons pair pairs ih =>
    rcases groups_cons pair.1 pair.2 pairs with ⟨_, heq⟩ | ⟨key, cs, rest, hcons,
      ⟨_, heq⟩ | ⟨_, heq⟩⟩
    · rw [heq] at h
      cases List.mem_singleton.mp h
      exact List.cons_ne_nil _ _
    · rw [heq] at h
      rcases List.mem_cons.mp h with rfl | h
      · exact List.cons_ne_nil _ _
      · exact ih (hcons ▸ .tail _ h)
    · rw [heq] at h
      rcases List.mem_cons.mp h with rfl | h
      · exact List.cons_ne_nil _ _
      · exact ih h

theorem mem_keys_groups {pairs : List (α × β)} {k : α} :
    k ∈ (groups pairs).map Prod.fst ↔ ∃ c, (k, c) ∈ pairs := by
  constructor
  · intro h
    obtain ⟨group, hgroup, rfl⟩ := List.mem_map.mp h
    obtain ⟨c, hc⟩ := List.exists_mem_of_ne_nil _ (ne_nil_of_mem_groups hgroup)
    refine ⟨c, ?_⟩
    rw [← flatMap_groups pairs]
    exact List.mem_flatMap.mpr ⟨group, hgroup, List.mem_map_of_mem hc⟩
  · rintro ⟨c, hc⟩
    rw [← flatMap_groups pairs] at hc
    obtain ⟨group, hgroup, hc⟩ := List.mem_flatMap.mp hc
    obtain ⟨_, _, heq⟩ := List.mem_map.mp hc
    cases heq
    exact List.mem_map_of_mem hgroup

end groups

theorem ascending_groups {β : Type} {pairs : List (Int32 × β)}
    (h : pairs.Pairwise fun p q => p.1 ≤ q.1) : ((groups pairs).map Prod.fst).Pairwise (· < ·) := by
  induction pairs with
  | nil => exact .nil
  | cons pair pairs ih =>
    obtain ⟨hle, hsorted⟩ := List.pairwise_cons.mp h
    have hih := ih hsorted
    rcases groups_cons pair.1 pair.2 pairs with ⟨_, heq⟩ | ⟨key, cs, rest, hcons,
      ⟨_, heq⟩ | ⟨hne, heq⟩⟩
    · rw [heq]
      exact List.pairwise_singleton _ _
    · rw [heq]
      rw [hcons] at hih
      exact hih
    · rw [heq, List.map_cons]
      refine List.pairwise_cons.mpr ⟨fun k hk => ?_, hih⟩
      have hkey : key ∈ (groups pairs).map Prod.fst := by rw [hcons]; exact List.mem_cons_self
      obtain ⟨c, hc⟩ := mem_keys_groups.mp hkey
      have hlt : pair.1 < key := Int32.lt_of_le_of_ne (hle _ hc) hne
      rw [hcons] at hk hih
      rcases List.mem_cons.mp hk with rfl | hk
      · exact hlt
      · exact Int32.lt_trans hlt ((List.pairwise_cons.mp hih).1 k hk)

section buckets

variable {b : Body} {arms : List Arm} {text : String} {l : Label}

theorem mem_textTargets : (text, l) ∈ textTargets b arms ↔
    ∃ arm ∈ arms, .text text ∈ arm.keys ∧ l = entryOf b arm.scope := by
  rw [textTargets, List.mem_flatMap]
  refine exists_congr fun arm => and_congr_right fun _ => ?_
  rw [List.mem_filterMap]
  constructor
  · rintro ⟨key, hkey, heq⟩
    split at heq
    · cases heq
      exact ⟨hkey, rfl⟩
    · cases heq
  · rintro ⟨hkey, rfl⟩
    exact ⟨_, hkey, rfl⟩

theorem mem_buckets {hash : Int32} {texts : List (String × Label)}
    (h : (hash, texts) ∈ buckets b arms) (hmem : (text, l) ∈ texts) :
    hash = hashCode text ∧ (text, l) ∈ textTargets b arms := by
  have hpair : (hash, (text, l)) ∈ ((textTargets b arms).map fun target =>
      (hashCode target.1, target)).mergeSort fun p q => decide (p.1 ≤ q.1) := by
    rw [← flatMap_groups (List.mergeSort _ _)]
    exact List.mem_flatMap.mpr ⟨_, h, List.mem_map_of_mem hmem⟩
  obtain ⟨target, htarget, heq⟩ := List.mem_map.mp (List.mem_mergeSort.mp hpair)
  cases heq
  exact ⟨rfl, htarget⟩

theorem exists_bucket (h : (text, l) ∈ textTargets b arms) :
    ∃ texts, (hashCode text, texts) ∈ buckets b arms ∧ (text, l) ∈ texts := by
  have hpair : (hashCode text, (text, l)) ∈ ((textTargets b arms).map fun target =>
      (hashCode target.1, target)).mergeSort fun p q => decide (p.1 ≤ q.1) :=
    List.mem_mergeSort.mpr (List.mem_map.mpr ⟨_, h, rfl⟩)
  rw [← flatMap_groups (List.mergeSort _ _)] at hpair
  obtain ⟨⟨hash, texts⟩, hgroup, hmem⟩ := List.mem_flatMap.mp hpair
  obtain ⟨target, htarget, heq⟩ := List.mem_map.mp hmem
  obtain ⟨rfl, rfl⟩ := Prod.mk.inj heq
  exact ⟨texts, hgroup, htarget⟩

theorem ascending_buckets : ((buckets b arms).map Prod.fst).Pairwise (· < ·) :=
  ascending_groups (sorted_mergeSort _)

theorem mem_keys_buckets {hash : Int32} : hash ∈ (buckets b arms).map Prod.fst ↔
    ∃ text l, (text, l) ∈ textTargets b arms ∧ hash = hashCode text := by
  constructor
  · intro h
    obtain ⟨⟨key, texts⟩, hbucket, rfl⟩ := List.mem_map.mp h
    obtain ⟨⟨text, l⟩, hmem⟩ := List.exists_mem_of_ne_nil _ (ne_nil_of_mem_groups hbucket)
    obtain ⟨hhash, htarget⟩ := mem_buckets hbucket hmem
    exact ⟨text, l, htarget, hhash⟩
  · rintro ⟨text, l, htarget, rfl⟩
    obtain ⟨texts, hbucket, _⟩ := exists_bucket htarget
    exact List.mem_map_of_mem hbucket

theorem find_answers_text (hnodup : (arms.flatMap Arm.keys).Nodup)
    (h : (text, l) ∈ textTargets b arms) :
    ((arms.find? (·.answers (.text (units text)))).map fun arm => entryOf b arm.scope) =
      some l := by
  obtain ⟨arm, harm, hkey, rfl⟩ := mem_textTargets.mp h
  have hanswers : arm.answers (.text (units text)) :=
    List.any_eq_true.mpr ⟨_, hkey, decide_eq_true rfl⟩
  cases hfind : arms.find? (·.answers (.text (units text))) with
  | none => exact absurd hanswers (List.find?_eq_none.mp hfind arm harm)
  | some other =>
    have hother := List.find?_some hfind
    obtain ⟨key, hkey', hmeans⟩ := List.any_eq_true.mp hother
    cases CaseKey.means_inj hmeans (show (CaseKey.text text).means _ from decide_eq_true rfl)
    rw [Arm.eq_of_nodup hnodup (List.mem_of_find?_eq_some hfind) harm hkey' hkey]
    rfl

theorem find_answers_none {units : List Nat}
    (h : ∀ text l, (text, l) ∈ textTargets b arms → Text.units text ≠ units) :
    arms.find? (·.answers (.text units)) = none := by
  refine List.find?_eq_none.mpr fun arm harm hanswers => ?_
  obtain ⟨key, hkey, hmeans⟩ := List.any_eq_true.mp hanswers
  cases key with
  | text text => exact h text _ (mem_textTargets.mpr
    ⟨arm, harm, hkey, rfl⟩) (of_decide_eq_true hmeans)
  | _ => cases hmeans

end buckets
end Lay

section dispatch

variable {b : Body} {homes : Array Home} {site : Site} {units : List Nat} {selector : Operand}

open Plot Machine

section tests

variable {α W : Type} {M : Machine α W} {ι : Point → α} {ps : List α} {w : W} {holding : Int32 → W}

/-- A machine compares a selector, which is a string, with texts. -/
structure Compares (b : Body) (homes : Array Home) (site : Site) (selector : Operand)
    (units : List Nat) (M : Machine α W) (ι : Point → α) (w : W) (holding : Int32 → W) : Prop where
  embeds : Embeds M ι
  branches : M.Branches w holding
  equals : ∀ text, Plot.Runs M ι (load b homes site selector ++ insns site (Push.string text) ++
    insn site (.invoke .virtual .stringEquals)) w
      (holding (if units = Text.units text then 1 else 0))

variable (h : Compares b homes site selector units M ι w holding)
include h

theorem goes_textTests (texts : List (String × Label)) :
    Goes M ι ps (textTests b homes site selector texts) w
      ((texts.find? fun target => Text.units target.1 = units).map Prod.snd) w := by
  induction texts with
  | nil => exact Plot.Runs.nil.goes
  | cons target texts ih =>
    obtain ⟨text, l⟩ := target
    have hequals : Goes M ι ps _ w none _ := (h.equals text).goes
    rw [List.find?_cons]
    by_cases heq : Text.units text = units
    · rw [if_pos heq.symm] at hequals
      rw [decide_eq_true heq]
      exact (hequals.append (.branch h.embeds (h.branches.jumpIf .ne l 1))).left
    · rw [if_neg (Ne.symm heq)] at hequals
      rw [decide_eq_false heq]
      exact (hequals.append (.branch_next h.embeds (h.branches.jumpIf .ne l 0))).append ih

theorem goes_bucket {kept : List Nat} {label fallback : Label} (texts : List (String × Label)) :
    Goes M ι ps (place label ⟨[], kept⟩ ++ textTests b homes site selector texts ++
      goto site fallback) w
      (some (((texts.find? fun target => Text.units target.1 = units).map Prod.snd).getD fallback))
      w := by
  have hplace : Plot.Runs M ι (place label ⟨[], kept⟩) w w :=
    .act h.embeds rfl (h.branches.label label)
  have htests : Goes M ι ps _ w _ w := hplace.goes.append (goes_textTests h texts)
  cases hfind : texts.find? fun target => Text.units target.1 = units with
  | some target =>
    rw [hfind] at htests
    exact htests.left
  | none =>
    rw [hfind] at htests
    exact htests.append (.branch h.embeds (h.branches.goto fallback))

/-- The buckets lead to the arm with a label of the same units, from where the hash code is
  known. -/
theorem goes_buckets {kept : List Nat} {arms : List Arm} {fallback : Label}
    {ls : List (Label × Int32 × List (String × Label))} {start : W} {lead : Plot}
    (hps : Distinct M.code? ps) (hnodup : (arms.flatMap Arm.keys).Nodup)
    (hls : ls.map Prod.snd = Lay.buckets b arms)
    (hlead : Plot.Runs M ι lead start (holding (unitsHash units))) :
    Goes M ι ps (lead ++
        branch site (.lookupSwitch fallback (ls.map fun (label, hash, _) => (hash, label))) ++
        concat (ls.map fun (label, _, texts) =>
          place label ⟨[], kept⟩ ++ textTests b homes site selector texts ++ goto site fallback))
      start
      (some (((arms.find? (·.answers (.text units))).map fun arm =>
        Lay.entryOf b arm.scope).getD fallback)) w := by
  intro n k hlies j hj
  rw [map_append] at hlies
  have hkeys : ((ls.map fun x => (x.2.1, x.1)).map Prod.fst).Nodup := by
    have hmap : (ls.map fun x => (x.2.1, x.1)).map Prod.fst = (Lay.buckets b arms).map
      Prod.fst := by
      rw [← hls, List.map_map, List.map_map]
      rfl
    rw [hmap]
    exact Lay.ascending_buckets.imp Int32.ne_of_lt
  have hbranch : Goes M ι ps
      (lead ++ branch site (.lookupSwitch fallback (ls.map fun x => (x.2.1, x.1)))) start
      (some (((ls.map fun x => (x.2.1, x.1)).lookup (unitsHash units)).getD fallback)) w :=
    hlead.goes.append (.branch h.embeds (h.branches.choose _ _ _ rfl))
  have hrun := hbranch n k hlies.left
  cases hlookup : (ls.map fun x => (x.2.1, x.1)).lookup (unitsHash units) with
  | none =>
    -- A label with the same units would have a bucket.
    have hnone : arms.find? (·.answers (.text units)) = none := by
      refine Lay.find_answers_none (b := b) fun text l hmem hunits => ?_
      obtain ⟨texts, hbucket, _⟩ := Lay.exists_bucket hmem
      rw [← hls, hashCode, hunits] at hbucket
      obtain ⟨⟨label, hash, texts⟩, hx, hx'⟩ := List.mem_map.mp hbucket
      obtain ⟨rfl, rfl⟩ := Prod.mk.inj hx'
      have hne := List.lookup_eq_none_iff.mp hlookup _ (List.mem_map_of_mem hx)
      exact bne_iff_ne.mp hne rfl
    rw [hnone] at hj
    rw [hlookup] at hrun
    exact hrun j hj
  | some label =>
    obtain ⟨⟨label', hash, texts⟩, hx, hx'⟩ :=
      List.mem_map.mp ((lookup_eq_some_iff_mem hkeys).mp hlookup)
    obtain ⟨rfl, rfl⟩ := Prod.mk.inj hx'
    obtain ⟨n', k', hbucket⟩ := lies_concat hx hlies.right
    rw [hlookup] at hrun
    have hlabel : find? M.code? ps label' = some k' :=
      hps.find? (hbucket.stands (h.embeds.code _))
    refine (hrun k' hlabel).trans (goes_bucket h texts n' k' hbucket j ?_)
    have hmem : (unitsHash units, texts) ∈ Lay.buckets b arms := by
      rw [← hls]
      exact List.mem_map.mpr ⟨_, hx, rfl⟩
    cases hfind : texts.find? fun target => Text.units target.1 = units with
    | some target =>
      obtain ⟨text, l⟩ := target
      have hunits := List.find?_some hfind
      have htarget := (Lay.mem_buckets hmem (List.mem_of_find?_eq_some hfind)).2
      rw [← of_decide_eq_true hunits, Lay.find_answers_text hnodup htarget] at hj
      exact hj
    | none =>
      have hnone : arms.find? (·.answers (.text units)) = none := by
        refine Lay.find_answers_none (b := b) fun text l htarget hunits => ?_
        obtain ⟨texts', hbucket', htext⟩ := Lay.exists_bucket htarget
        rw [hashCode, hunits] at hbucket'
        have hascending : ((Lay.buckets b arms).map Prod.fst).Nodup :=
          Lay.ascending_buckets.imp Int32.ne_of_lt
        have hsame := (lookup_eq_some_iff_mem hascending).mpr hmem
        rw [(lookup_eq_some_iff_mem hascending).mpr hbucket'] at hsame
        cases hsame
        exact List.find?_eq_none.mp hfind _ htext (decide_eq_true hunits)
      rw [hnone] at hj
      exact hj

end tests

variable {world : World} {f : Frame} {handler? : Nat → ClassName → Option Label} {ps : List Point}

theorem coercion_string (r : RefType) :
    coercion (.ref r) .string = [] ∨ coercion (.ref r) .string =
      [.checkCast (.object .string)] := by
  unfold coercion
  split
  · exact .inl rfl
  · exact .inr rfl

theorem runs_selector (hreads : S.Reads b.values) (hkind : S.kind = .string)
    (hf : b.datum? homes f S.selector.value = some (.text units)) :
    Plot.Runs (world.machine Point.code? handler?) id (load b homes site S.selector) f
      (f.push (.text units)) := by
  refine ((Plot.Runs.pass embeds_world rfl).append (runs_fetch hf)).append ?_
  obtain ⟨info, hinfo, hconverts⟩ := hreads
  have hconverts : S.selector.coercion = coercion info.type .string := by
    rw [hkind] at hconverts
    exact hconverts
  have hknown : info.type.kind = .ref := by
    have hfound := of_decide_eq_true (Option.filter_eq_some_iff.mp hf).2
    rw [Lay.typeOf, hinfo] at hfound
    exact hfound.symm
  cases htype : info.type with
  | prim p =>
    rw [htype] at hknown
    cases hknown
  | ref r =>
    rw [hconverts, htype]
    rcases coercion_string r with hnil | hcast
    · rw [hnil]
      exact .nil
    · rw [hcast]
      exact (Plot.Runs.insn rfl).append .nil

theorem compares_selector (hload : Plot.Runs (world.machine Point.code? handler?) id
      (load b homes site selector) f (f.push (.text units))) :
    Compares b homes site selector units (world.machine Point.code? handler?) id f
      fun n => f.push (.int n) where
  embeds := embeds_world
  branches := World.branches
  equals text := by
    refine (hload.append ((Plot.Runs.insn rfl).append .nil)).append (Plot.Runs.insn ?_)
    simp only [World.insn?, World.invokeVirtual?, Frame.push]
    rw [if_neg (by decide), if_pos trivial]

/-- The dispatch leads to the arm with a label of the same units. -/
theorem goes_stringSwitch {kept : List Nat} {arms : List Arm} {fallback : Label}
    (hps : (Point.placed ps).Nodup) (hnodup : (arms.flatMap Arm.keys).Nodup)
    (hload : Plot.Runs (world.machine Point.code? handler?) id (load b homes site selector) f
      (f.push (.text units))) :
    Goes (world.machine Point.code? handler?) id ps
      (stringSwitch b homes site kept selector arms fallback) f
      (some (((arms.find? (·.answers (.text units))).map fun arm =>
        Lay.entryOf b arm.scope).getD fallback)) f := by
  intro n k hlies
  obtain ⟨ls, m, hls, _, heq⟩ := freshFor_apply (Lay.buckets b arms) _ n
  rw [stringSwitch, heq] at hlies
  refine goes_buckets (compares_selector hload) (Point.distinct hps) hnodup hls
    (hload.append (Plot.Runs.insn ?_)) m k hlies
  simp only [World.insn?, World.invokeVirtual?, Frame.push, if_true, unitsHash_eq]

end dispatch

def SwitchStatement.textLabels (S : SwitchStatement) : List String :=
  (S.arms.flatMap Arm.keys).filterMap fun
    | .text text => some text
    | _ => none

theorem SwitchStatement.mem_textLabels {text : String} :
    text ∈ S.textLabels ↔ ∃ l, (text, l) ∈ Lay.textTargets b S.arms := by
  simp only [Lay.mem_textTargets, textLabels, List.mem_filterMap, List.mem_flatMap]
  constructor
  · rintro ⟨key, ⟨arm, harm, hkey⟩, heq⟩
    split at heq
    · cases heq
      exact ⟨_, arm, harm, hkey, rfl⟩
    · cases heq
  · rintro ⟨_, arm, harm, hkey, _⟩
    exact ⟨_, ⟨arm, harm, hkey⟩, rfl⟩

namespace Body

variable {b : Body} {homes : Array Home} {ps : List Point}

theorem stands_arrival {inner : Plot.Inner} {s k n : Nat} {status : Status}
    (hlies : Machine.Lies ps k (switch b homes inner s status S n).points) {x : Subject}
    {arm? : Option Arm} (h : S.Selects x arm?) :
    ∃ j, Stands Point.code? ps j (.label (b.arrival S arm?)) := by
  have harm : ∀ arm ∈ S.arms, ∃ j, Stands Point.code? ps j (.label (Lay.entryOf b arm.scope)) := by
    intro arm harm
    obtain ⟨n', k', hlies'⟩ := lies_concat harm hlies.left.right.map_id
    exact ⟨k', hlies'.stands rfl⟩
  cases h with
  | labelled hmem => exact harm _ hmem
  | default _ hmem => exact harm _ hmem
  | exit => exact ⟨_, hlies.right.stands rfl⟩

end Body

section run

variable {S : SwitchStatement} {site : Site} {kept : List Nat}

theorem Body.home_selector (hb : b.Sound) {s : Nat} (hs : b.Region 0 s)
    (hS : .switch S ∈ b.operations s) (hkind : S.kind ≠ .int) :
    Lay.homeOf b.allocate.homes S.selector.value = .constant ∨
      ∃ slot, Lay.homeOf b.allocate.homes S.selector.value = .slot slot := by
  obtain ⟨before, after, hops⟩ := List.append_of_mem hS
  have hread : S.selector.value ∈ (Operation.switch S).operands.map Operand.value :=
    .head _
  cases hhome : Lay.homeOf b.allocate.homes S.selector.value with
  | constant => exact .inl rfl
  | slot k => exact .inr ⟨k, rfl⟩
  | nowhere => exact absurd hhome (home_read hb hs hops hread)
  | stack =>
    obtain ⟨htop, _⟩ := stack_read hb hs hops hread hhome
    obtain ⟨kind, selector, frame, arms, fallthrough⟩ := S
    cases kind with
    | int => exact absurd rfl hkind
    | _ => cases htop

/-- The first branch of the dispatch on a string goes by the hash codes of the labels. -/
theorem Recorder.firstBranch_text {homes : Array Home} {ps : List Point} {free params k n : Nat}
    {l : Label} {status : Status} (hregular : Point.Regular ps) (hk : Reached free params ps k)
    (hkind : S.kind = .string) (hlies : Machine.Lies ps k
      ((place l status ++ dispatch b homes site kept S) n).points) :
    ∃ fallback targets,
      FirstBranch ((List.range (ps.length + 1)).filterMap (kept? free params ps))
        (spot free params ps k) (.lookupSwitch fallback targets) ∧
      targets.map Prod.fst = (Lay.buckets b S.arms).map Prod.fst := by
  change Machine.Lies ps k (.label l (some status) :: (dispatch b homes site kept S n).points)
    at hlies
  obtain ⟨ls, m, hls, _, heq⟩ := freshFor_apply (Lay.buckets b S.arms) _ n
  rw [dispatch, hkind] at hlies
  dsimp only at hlies
  rw [stringSwitch, heq] at hlies
  have hhead : Machine.Lies ps k (.label l (some status) ::
      (((Plot.load b homes site S.selector ++
        Plot.insn site (.invoke .virtual .stringHashCode)) m).points ++
        [.branch (.lookupSwitch (Lay.fallback b S) (ls.map fun x => (x.2.1, x.1))) (some site)])) :=
    hlies.left
  refine ⟨_, _, firstBranch_spot hregular hk hhead fun p hp => ?_, ?_⟩
  · exact (((idle_load site S.selector).append (idle_insn site _)) m).2.2 p hp
  · rw [← hls, List.map_map, List.map_map]
    rfl

end run

/-- A switch on strings goes to the arm with a label of the same units as the string, or to the arm
for everything else, or behind the switch, and leaves the frame as it was. It goes by the hash
codes of its labels first, in ascending order. -/
theorem string_switch_selects {b b' : Body} {code : Code} {notice : Notice} (hb : b.Built)
    (hinit : b.completeInit = .ok b') (hcode : b.toCode = .ok (code, notice)) {s : Nat}
    {S : SwitchStatement} (hs : b'.Region 0 s) (hS : .switch S ∈ b'.operations s)
    (hkind : S.kind = .string) {x : Nat}
    (hx : code.entries[x]? = some (.label (Lay.entryOf b' S.frame)))
    (hreach : Reach some code.entries code.ranges x) :
    (∃ fallback targets,
      Recorder.FirstBranch code.entries x (.lookupSwitch fallback targets) ∧
      (targets.map Prod.fst).Pairwise (· < ·) ∧
      ∀ hash, hash ∈ targets.map Prod.fst ↔
        ∃ text ∈ S.textLabels, hash = Int32.ofNat (polynomial (units text))) ∧
    (Lay.homeOf b'.allocate.homes S.selector.value = .constant ∨
      ∃ slot, Lay.homeOf b'.allocate.homes S.selector.value = .slot slot) ∧
    ∀ (world : World) (handler? : Nat → ClassName → Option Label) (f : Frame) (units : List Nat),
      b'.datum? b'.allocate.homes f S.selector.value = some (.text units) →
      ∃ arm? y, S.Selects (.text units) arm? ∧
        code.entries[y]? = some (.label (b'.arrival S arm?)) ∧
        (world.machine some handler?).Leads code.entries (.running x f) (.running y f) := by
  have hsound := (hb.finished.completeInit hinit).sound
  have hregular := regular hsound b'.allocate.homes
  obtain ⟨⟨table, hkeyed⟩, hreads⟩ := hb.keyed hinit s S hS
  obtain ⟨layout, _, hentries, hranges⟩ := toCode_kept hsound hinit hcode
  obtain ⟨inner, status, n, k, hlies⟩ := exists_lies_switch hsound b'.allocate.homes hs hS
  generalize b'.points b'.allocate.homes = ps at hregular hentries hranges hlies
  rw [hentries] at hx
  rw [hentries, hranges] at hreach
  obtain ⟨i, hlabel, hreached, rfl⟩ := exists_reached hregular hx hreach
  cases Point.stands_unique hregular.nodup hlabel (hlies.left.left.left.stands rfl)
  rw [hentries]
  refine ⟨?_, home_selector hsound hs hS (by simp [hkind]),
    fun world handler? f units hf => ?_⟩
  · obtain ⟨fallback, targets, hfirst, hkeys⟩ := firstBranch_text hregular hreached hkind
      hlies.left.left
    refine ⟨fallback, targets, hfirst, hkeys ▸ Lay.ascending_buckets, fun hash => ?_⟩
    rw [hkeys, Lay.mem_keys_buckets]
    constructor
    · rintro ⟨text, l, htarget, rfl⟩
      exact ⟨text, SwitchStatement.mem_textLabels.mpr ⟨l, htarget⟩, unitsHash_eq _⟩
    · rintro ⟨text, htext, rfl⟩
      obtain ⟨l, htarget⟩ := SwitchStatement.mem_textLabels.mp htext
      exact ⟨text, l, htarget, (unitsHash_eq _).symm⟩
  · have hselects := hkeyed.selects (.text units)
    obtain ⟨j, hj⟩ := stands_arrival hlies hselects
    refine ⟨_, spot layout.nextLabel b'.firstFree ps j, hselects, ?_, ?_⟩
    · obtain ⟨e, he, heq⟩ := stands_spot layout.nextLabel b'.firstFree hj
      cases heq
      exact he
    · have hrun : Plot.Goes (world.machine Point.code? fun _ _ => none) id ps
          (place (Lay.entryOf b' S.frame) status ++
            dispatch b' b'.allocate.homes ⟨s, none⟩ status.kept S) f
          (some (b'.arrival S (S.arm? (.text units)))) f := by
        rw [dispatch, hkind, arrival_arm?]
        exact (Plot.Runs.act embeds_world rfl rfl).goes.append
          (goes_stringSwitch hregular.nodup hkeyed.nodup (runs_selector hreads hkind hf))
      exact leads_kept hregular rfl (fun _ _ => rfl) World.sensible
        (fun _ _ => rfl) handler? hreached
        (hrun n k hlies.left.left.map_id j ((Point.distinct hregular.nodup).find? hj)) (by simp)

def Body.textStart : Body :=
  ((start ⟨0, 0⟩ { owner := ⟨"Sample"⟩, name := ⟨"run"⟩, type := ⟨[.string], none⟩ }
    .staticFlag .object {} #[]).toOption).get rfl

theorem Body.begins_textStart : Begins #[] textStart :=
  ⟨⟨0, 0⟩, { owner := ⟨"Sample"⟩, name := ⟨"run"⟩, type := ⟨[.string], none⟩ },
    .staticFlag, .object, {}, rfl⟩

def Build.tellApart : Build Unit Unit := do
  let text ← param 0
  switchString 0 text do
    case [.text "Aa"] fun arm => returnVoid arm
    case [.text "BB"] fun _ => pure ()

theorem Build.writes_tellApart : Writes Unit 0 Unit tellApart :=
  .bind (.call (.param 0)) fun text =>
    .switchString text (.bind (.case _ fun _ => .call .returnVoid) fun _ => .case _ fun _ =>
      .pure ())

def SwitchStatement.tellApart : SwitchStatement where
  kind := .string
  selector := ⟨0, []⟩
  frame := 1
  arms := [⟨[.text "Aa"], false, 2⟩, ⟨[.text "BB"], false, 3⟩]
  fallthrough := false

def Body.tellApartFrame : Body := (textStart.openScope (some 0) .switchFrame).2

def Body.tellApartFirst : Body :=
  (Build.after (Build.returnVoid 2) ⟨(tellApartFrame.openScope (some 1) .switchCase).2, ()⟩).body

def Body.tellApart : Body :=
  (tellApartFirst.openScope (some 1) .switchCase).2.push 0 (.switch .tellApart)

theorem Build.run_tellApart : tellApart ⟨Body.textStart, ()⟩ = .ok () ⟨Body.tellApart, ()⟩ := by
  obtain ⟨seen, hseen, hfirst⟩ := case_of_new [.text "Aa"] [.text "Aa"]
    (fun arm => returnVoid arm) tellApartFrame { kind := .string, table := none, frame := 1 } ()
    rfl (by decide) (by simp) rfl
  obtain ⟨seen', _, hsecond⟩ := case_of_new [.text "BB"] [.text "BB"] (fun _ => pure ())
    tellApartFirst
    { kind := .string, table := none, frame := 1, seen := seen,
      arms := #[⟨[.text "Aa"], false, 2⟩] } () rfl (by decide) (by simp [hseen]) rfl
  show switchOn 0 .string none ⟨0, []⟩ _ ⟨textStart, ()⟩ = _
  exact (switchOn_of_ok ((bind_of_ok hfirst).trans hsecond)).trans rfl

theorem Body.built_tellApart : Body.tellApart.Built := by
  have hbuilt : (Build.after Build.tellApart ⟨textStart, ()⟩).body.Built :=
    .first begins_textStart Build.writes_tellApart
  rwa [Build.after_of_ok Build.run_tellApart] at hbuilt

theorem Body.init_tellApart : tellApart.completeInit = .ok tellApart :=
  completeInit_of_called (by decide +kernel)

theorem Body.exists_code_tellApart : ∃ code notice, tellApart.toCode = .ok (code, notice) := by
  refine exists_code_of_fits built_tellApart (by decide +kernel) (by decide +kernel)
    (by decide +kernel) fun v k hv => ?_
  have hhome : tellApart.allocate.homes = #[.slot 0] := by decide +kernel
  rw [hhome] at hv
  rcases v with _ | v
  · cases hv
    decide +kernel
  · cases hv

/-- `Aa` and `BB` have one hash code, and are told apart whatever the string in slot 0 is. -/
theorem string_switch_selects_tellApart :
    tellApart.Built ∧ tellApart.completeInit = .ok tellApart ∧
      polynomial (units "Aa") = polynomial (units "BB") ∧
      ∃ code notice, tellApart.toCode = .ok (code, notice) ∧
        code.entries[1]? = some (.label (Lay.entryOf tellApart 1)) ∧
        Reach some code.entries code.ranges 1 ∧
        ∀ (world : World) (handler? : Nat → ClassName → Option Label) (f : Frame)
          (units : List Nat), f.locals 0 = some (.text units) →
          ∃ arm? y, SwitchStatement.tellApart.Selects (.text units) arm? ∧
            code.entries[y]? = some (.label (tellApart.arrival .tellApart arm?)) ∧
            (world.machine some handler?).Leads code.entries (.running 1 f) (.running y f) := by
  have hbuilt := built_tellApart
  have hinit := init_tellApart
  obtain ⟨code, notice, hcode⟩ := exists_code_tellApart
  obtain ⟨layout, _, hentries, _⟩ :=
    toCode_kept (hbuilt.finished.completeInit hinit).sound hinit hcode
  have hfirst : Stands Point.code? (tellApart.points tellApart.allocate.homes) 0 (.label ⟨0⟩) :=
    ⟨_, rfl, rfl⟩
  have hsecond : Stands Point.code? (tellApart.points tellApart.allocate.homes) 1
    (.label (Lay.entryOf tellApart 1)) := ⟨_, rfl, rfl⟩
  have hspot : spot layout.nextLabel tellApart.firstFree
      (tellApart.points tellApart.allocate.homes) 1 = 1 :=
    (kept_label hfirst).rank_succ
  have hstart : Stands some code.entries 0 (.label ⟨0⟩) := by
    rw [hentries]
    exact stands_spot layout.nextLabel tellApart.firstFree hfirst
  have hentry : Stands some code.entries 1 (.label (Lay.entryOf tellApart 1)) := by
    have h := stands_spot layout.nextLabel tellApart.firstFree hsecond
    rwa [hspot, ← hentries] at h
  have hreach : Reach some code.entries code.ranges 1 := .step .start (.next hstart rfl)
  have hx := stands_some_iff.mp hentry
  have hhome : Lay.homeOf tellApart.allocate.homes 0 = .slot 0 := by decide +kernel
  refine ⟨hbuilt, hinit, by decide +kernel, code, notice, hcode, hx, hreach,
    fun world handler? f units hf => ?_⟩
  refine (string_switch_selects hbuilt hinit hcode .refl (S := .tellApart)
    (.head _) rfl hx hreach).2.2 world handler? f units ?_
  show datum? tellApart tellApart.allocate.homes f 0 = some (.text units)
  have hkind : (Lay.typeOf tellApart 0).kind = .ref := by decide +kernel
  simp [datum?, hhome, hf, hkind, Datum.kind]

end ClassAssembler
