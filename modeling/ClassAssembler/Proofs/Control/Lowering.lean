import ClassAssembler.Proofs.Control.Branching

/-!
# Operations become code

The script of every operation follows what the operation does, and so does the script of a whole
body.
-/

namespace ClassAssembler

open List Script

namespace Script

theorem add_length_append (s s' : Script) (n k : Nat) : k + ((s ++ s') n).lines.length =
    k + (s n).lines.length + (s' (s n).next).lines.length := by
  rw [append_apply, length_append, Nat.add_assoc]

theorem length_place (l : Label) (status : Status) (n : Nat) :
    (lift (Plot.place l status) n).lines.length = 1 := rfl

end Script

theorem Script.exists_lies_suffix {α : Type} {pre suf : List α} {s : α → Script}
    {ls : List (Line Point)} {n k : Nat}
    (h : Machine.Lies ls k (concat ((pre ++ suf).map s) n).lines) :
    ∃ n' k', Machine.Lies ls k' (concat (suf.map s) n').lines ∧
      k' + (concat (suf.map s) n').lines.length =
        k + (concat ((pre ++ suf).map s) n).lines.length := by
  induction pre generalizing n k with
  | nil => exact ⟨n, k, h, rfl⟩
  | cons a pre ih =>
    obtain ⟨n', k', hlies, hend⟩ := ih h.right
    refine ⟨n', k', hlies, hend.trans ?_⟩
    rw [Nat.add_assoc, ← length_append]
    rfl

namespace Stage

open Machine Conduct

variable {A : Stage} {homes : Array Home} {inner : Script.Inner} {m : Nat → Conduct}
  {scope index : Nat} {status : Status}

theorem follows_simple (act : Action) (operands : List Operand) (result : Option Nat) :
    A.Follows (does scope index)
      (.operation A.body homes inner scope index status (.simple act operands result)) := by
  rw [← andThen_falls (does scope index)]
  exact (Follows.begins scope index).append (.lift (.simple _ _ act operands result))

theorem holds_eq_of_zero {v : Int32} (h : v = 0) : OrdTest.eq.holds v = true := decide_eq_true h

theorem holds_eq_of_ne {v : Int32} (h : v ≠ 0) : OrdTest.eq.holds v = false := decide_eq_false h

theorem holds_ne_of_zero {v : Int32} (h : v = 0) : OrdTest.ne.holds v = false :=
  decide_eq_false (Decidable.not_not.mpr h)

theorem holds_ne_of_ne {v : Int32} (h : v ≠ 0) : OrdTest.ne.holds v = true := decide_eq_true h

theorem follows_exitUnless (cond : Operand) (target : Nat) :
    A.Follows (asks A.oracle fun answer =>
      gives (if answer.number ≠ 0 then .falls else .leaves target))
      (.operation A.body homes inner scope index status (.exitUnless cond target)) := by
  intro n k c t hlies ht
  obtain ⟨t', ht', hjump, hnext⟩ := leads_jumpIf (.idle (Plot.idle_load _ cond)) hlies ht
  show A.Lands _ _ _ (_, if (A.oracle c.asked).number ≠ 0 then _ else _)
  by_cases hzero : (A.oracle c.asked).number = 0
  · rw [if_neg (Decidable.not_not.mpr hzero)]
    exact .leaves ht' (hjump (holds_eq_of_zero hzero))
  · rw [if_pos hzero]
    exact .falls ht' (hnext (holds_eq_of_ne hzero))

section enclosed

variable {n k : Nat} (hlies : Lies A.lines k (enclosed A.body inner scope status n).lines)

include hlies

theorem goTo_entry (t : Tape) :
    A.machine.goTo A.lines (Lay.entryOf A.body scope) t = .running k t := goTo_label hlies

theorem leads_exit (t : Tape) : A.Leads (A.machine.goTo A.lines (Lay.exitOf A.body scope) t)
    (.running (k + (enclosed A.body inner scope status n).lines.length) t) := by
  rw [length_enclosed, ← Nat.add_assoc, ← Nat.add_assoc]
  rw [lines_enclosed] at hlies
  rw [goTo_label hlies.tail.right]
  exact leads_label hlies.tail.right

end enclosed

theorem follows_ifThen (cond : Operand) {whenTrue : Nat}
    (h : ∀ status, A.Follows (m whenTrue) (inner whenTrue status)) :
    A.Follows (asks A.oracle fun answer =>
      if answer.number ≠ 0 then within whenTrue (m whenTrue) else gives .falls)
      (.operation A.body homes inner scope index status (.branch cond whenTrue none)) := by
  intro n k c t hlies ht
  obtain ⟨t', ht', hjump, hnext⟩ := leads_jumpIf (.idle (Plot.idle_load _ cond)) hlies.left ht
  rw [operation, append_apply, length_append, ← Nat.add_assoc]
  show A.Lands _ _ _ ((if (A.oracle c.asked).number ≠ 0 then _ else _ : Conduct) _)
  by_cases hzero : (A.oracle c.asked).number = 0
  · rw [if_neg (Decidable.not_not.mpr hzero)]
    exact .falls ht' ((hjump (holds_eq_of_zero hzero)).trans (leads_exit hlies.right t'))
  · rw [if_pos hzero]
    exact ((h _).enclosed _ _ _ t' hlies.right ht').of_leads (hnext (holds_eq_of_ne hzero))

theorem follows_ifElse (cond : Operand) {whenTrue whenFalse : Nat}
    (htrue : ∀ status, A.Follows (m whenTrue) (inner whenTrue status))
    (hfalse : ∀ status, A.Follows (m whenFalse) (inner whenFalse status)) :
    A.Follows (asks A.oracle fun answer =>
      if answer.number ≠ 0 then within whenTrue (m whenTrue)
      else (within whenFalse (m whenFalse)).andThen (gives .falls))
      (.operation A.body homes inner scope index status
        (.branch cond whenTrue (some whenFalse))) := by
  intro n k c t hlies ht
  obtain ⟨t', ht', hjump, hnext⟩ :=
    leads_jumpIf (.idle (Plot.idle_load _ cond)) hlies.left.left.left ht
  rw [operation, append_apply, length_append, ← Nat.add_assoc]
  show A.Lands _ _ _ ((if (A.oracle c.asked).number ≠ 0 then _ else _ : Conduct) _)
  by_cases hzero : (A.oracle c.asked).number = 0
  · rw [if_neg (Decidable.not_not.mpr hzero)]
    have hrun := ((hfalse _).enclosed _ _ _ t' hlies.left.left.right ht').of_leads
      (hnext (holds_ne_of_zero hzero))
    refine hrun.andThen fun t1 ht1 => .falls ht1 ?_
    have hgoto := hlies.left.right
    rw [append_apply, length_append, ← Nat.add_assoc] at hgoto
    exact (leads_goto hgoto).trans (leads_exit hlies.right t1)
  · rw [if_pos hzero]
    have hleads := hjump (holds_ne_of_ne hzero)
    rw [goTo_entry hlies.right] at hleads
    exact ((htrue _).enclosed _ _ _ t' hlies.right ht').of_leads hleads

theorem follows_exit {signal : Signal} {l : Label} {site : Site}
    (h : ∀ c t k stop, Tape.At t c → A.Leads (.running k t) (A.machine.goTo A.lines l t) →
      A.Lands A.passes (.running k t) stop (c, signal)) :
    A.Follows (gives signal) (.exit (.lift (Plot.goto site l))) := by
  intro n k c t hlies ht
  exact h c t k _ ht ((leads_label hlies.left.left).trans (leads_goto hlies.left.right))

theorem lands_end {p : Plot} {site : Site} {br : Branch} {n k stop : Nat} {c : Course} {t : Tape}
    (hp : A.Passes p) (hbr : ∀ t, Tape.branch A.chance br t = .halt t)
    (hlies : Lies A.lines k
      ((mark (.ends scope index) ++ lift (p ++ Plot.branch site br)) n).lines)
    (ht : t.At c) : A.Lands A.passes (.running k t) stop (c, .ends scope index) := by
  have hlift := hlies.right
  change Lies A.lines (k + 1) (((p ++ Plot.branch site br) n).points.map .item) at hlift
  rw [Plot.map_append] at hlift
  obtain ⟨t', halike, hleads⟩ := hp n (k + 1) { t with ending := .exits scope index } hlift.left
  have hbranch := hlift.right
  rw [length_map] at hbranch
  refine .ends (halike.course.trans ht.course) halike.ending ?_
  exact ((leads_mark hlies.left).trans hleads).trans (.halt (hbranch.stands rfl) (hbr t'))

theorem follows_ret (value : Option Operand) (cleanups : List Cleanup) :
    A.Follows (gives (.ends scope index))
      (.operation A.body homes inner scope index status (.ret value cleanups)) := by
  intro n k c t hlies ht
  exact (lands_end (.idle (Plot.idle_loads _ _)) (fun _ => rfl) hlies.left.right ht).of_leads
    (leads_label hlies.left.left)

theorem follows_throw (value : Operand) :
    A.Follows (gives (.ends scope index))
      (.operation A.body homes inner scope index status (.throw value)) := fun _ _ _ _ hlies ht =>
  lands_end (.idle (Plot.idle_load _ value)) (fun _ => rfl) hlies ht

/-- Passes through a loop. Each takes a step at least. -/
theorem follows_loop {nested : Nat} {update : Option Nat}
    (hbody : A.Follows (m nested) (inner nested status))
    (hupdate : ∀ c ∈ update.toList, ∀ status, A.Follows (m c) (inner c status)) :
    A.Follows (within nested (repeated nested (m nested)
      (inTurn (update.toList.map fun scope => within scope (m scope))) A.passes))
      (.operation A.body homes inner scope index status (.loop nested update)) := by
  intro n k c t hlies ht
  have hentry := hlies.left.left.left.left.left
  have hinner := hlies.left.left.left.left.right
  have hagain := hlies.left.left.left.right
  have hupdates := hlies.left.left.right
  have hgoto := hlies.left.right
  have hexit := hlies.right
  rw [operation, add_length_append, length_place]
  refine Lands.within ?_ hexit
  simp only [add_length_append, length_place] at hinner hagain hupdates hgoto
  -- The exit is only reached by leaving the loop, so it does not matter where it is.
  generalize k + ((_ : Script) _).lines.length = stop
  have hturn : A.Follows (inTurn (update.toList.map fun scope => within scope (m scope)))
      (.concat (update.toList.map fun scope => .enclosed A.body inner scope ⟨[], status.kept⟩)) :=
    .concat fun c hc => (hupdate c hc _).enclosed
  have hloop : ∀ passes ≤ A.passes, ∀ c t, Tape.At t c →
      A.Lands passes (.running k t) stop (repeated nested (m nested)
        (inTurn (update.toList.map fun scope => within scope (m scope))) passes c) := by
    intro passes
    induction passes with
    | zero => exact fun _ c t ht => .spent (Nat.le_refl 0) ht rfl
    | succ passes ih =>
      intro hle c t ht
      have hle' := Nat.le_of_succ_le hle
      have hstep : A.machine.run A.lines 1 (.running k t) = .running (k + 1) t :=
        step_next (hentry.stands rfl) rfl
      have hback : ∀ t, A.Leads (.running _ t) (.running k t) := fun t =>
        goTo_label hentry ▸ leads_goto hgoto
      have hpass := (hbody n _ c t hinner ht).pass hagain
      refine (((hpass.mono hle').andThen fun t1 ht1 => ?_).of_run hstep).mono
        (Nat.le_of_eq (Nat.add_comm passes 1))
      refine (((hturn _ _ _ t1 hupdates ht1).mono hle').andThen fun t2 ht2 => ?_).of_leads
        (leads_label hagain)
      exact (ih hle' _ t2 ht2).of_leads (hback t2)
  exact hloop A.passes .refl c t ht

theorem exists_dropWhile {arms : List Arm} {arm : Arm} (h : arm ∈ arms) :
    ∃ pre first post, arms = pre ++ first :: post ∧
      arms.dropWhile (·.scope ≠ arm.scope) = first :: post ∧ first.scope = arm.scope := by
  induction arms with
  | nil => cases h
  | cons other arms ih =>
    by_cases hscope : other.scope = arm.scope
    · refine ⟨[], other, arms, rfl, ?_, hscope⟩
      rw [dropWhile_cons_of_neg]
      simpa using hscope
    · have hmem : arm ∈ arms := by
        rcases mem_cons.mp h with rfl | hmem
        · exact absurd rfl hscope
        · exact hmem
      obtain ⟨pre, first, post, rfl, hdrop, hfirst⟩ := ih hmem
      refine ⟨other :: pre, first, post, rfl, ?_, hfirst⟩
      rw [dropWhile_cons_of_pos, hdrop]
      simpa using hscope

theorem follows_arm {S : SwitchStatement} {arm : Arm} {kept : List Nat}
    (hfall : S.fallthrough = true)
    (h : ∀ status, A.Follows (m arm.scope) (inner arm.scope status)) :
    A.Follows (within arm.scope (m arm.scope)) (.arm A.body inner scope kept S arm) := by
  rw [← andThen_falls (within _ _), Script.arm, if_pos hfall]
  exact (h _).enclosed.append (.lift (.idle .nil))

theorem follows_switch {S : SwitchStatement} (hnodup : (S.arms.flatMap Arm.keys).Nodup)
    (h : ∀ arm ∈ S.arms, ∀ status, A.Follows (m arm.scope) (inner arm.scope status)) :
    A.Follows (Body.conduct A.oracle A.passes m scope index (.switch S))
      (.operation A.body homes inner scope index status (.switch S)) := by
  intro n k c t hlies ht
  obtain ⟨t', ht', hleads⟩ := leads_dispatch hnodup hlies.left.left.right ht
  have hstart : A.Leads (.running k t) (.running (k + 1) t) := leads_label hlies.left.left.left
  have harms := hlies.left.right
  have hexit := hlies.right
  rw [operation, switch, add_length_append, length_place]
  rw [add_length_append] at hexit ⊢
  simp only [Body.conduct, asks]
  refine Lands.within ?_ hexit
  cases harm : S.arm? (S.subject (A.oracle c.asked)) with
  | none =>
    rw [harm] at hleads
    exact .falls ht' (hstart.trans (hleads _ (find?_label hexit)))
  | some arm =>
    rw [harm] at hleads
    dsimp only
    have hmem := SwitchStatement.mem_of_arm? harm
    by_cases hfall : S.fallthrough = true
    · obtain ⟨pre, first, post, hsplit, hdrop, hscope⟩ := exists_dropWhile hmem
      have hrest : ∀ arm ∈ first :: post, arm ∈ S.arms := fun arm harm => by
        rw [hsplit]
        exact mem_append_right _ harm
      rw [SwitchStatement.entered, if_pos hfall, hdrop]
      rw [hsplit] at harms hexit ⊢
      obtain ⟨n', k', hlies', hend⟩ := exists_lies_suffix harms
      have hentry : find? A.machine.code? A.lines (Lay.entryOf A.body arm.scope) = some k' :=
        hscope ▸ find?_label hlies'.left.left
      have hrun := Follows.concat (fun arm harm => follows_arm hfall (h arm (hrest arm harm)))
        n' k' _ t' hlies' ht'
      rw [hend] at hrun
      exact hrun.of_leads (hstart.trans (hleads k' hentry))
    · obtain ⟨pre, post, hsplit⟩ := append_of_mem hmem
      rw [SwitchStatement.entered, if_neg hfall]
      rw [hsplit] at harms hexit ⊢
      obtain ⟨n', k', hlies', _⟩ := exists_lies_suffix harms
      have harm' := hlies'.left
      rw [Script.arm, if_neg hfall] at harm'
      have hrun := (h arm hmem _).enclosed n' k' _ t' harm'.left ht'
      refine (hrun.andThen fun t1 ht1 => .falls ht1 ?_).of_leads
        (hstart.trans (hleads k' (find?_label harm'.left)))
      rw [← goTo_label hexit]
      exact leads_goto harm'.right

theorem follows_operation {op : Operation} (hop : op.Untried)
    (hkeys : ∀ S, op = .switch S → (S.arms.flatMap Arm.keys).Nodup)
    (h : ∀ c ∈ op.nested, ∀ status, A.Follows (m c) (inner c status)) :
    A.Follows (Body.conduct A.oracle A.passes m scope index op)
      (.operation A.body homes inner scope index status op) := by
  cases op with
  | simple act operands result => exact follows_simple act operands result
  | block nested => exact (h nested (.head _) _).enclosed
  | branch cond whenTrue whenFalse =>
    cases whenFalse with
    | none => exact follows_ifThen cond (h whenTrue (.head _))
    | some whenFalse =>
      exact follows_ifElse cond (h whenTrue (.tail _ (.head _)))
        (h whenFalse mem_cons_self)
  | loop nested update =>
    exact follows_loop (h nested mem_cons_self _) fun c hc => h c (.tail _ hc)
  | exitUnless cond target => exact follows_exitUnless cond target
  | jump kind target cleanups =>
    cases kind with
    | leave => exact follows_exit fun _ _ _ _ ht hleads => .leaves ht hleads
    | again => exact follows_exit fun _ _ _ _ ht hleads => .repeats ht hleads
  | ret value cleanups => exact follows_ret value cleanups
  | throw value => exact follows_throw value
  | tryCatch T => cases hop
  | switch S => exact follows_switch (hkeys S rfl) fun arm harm => h arm.scope (mem_map_of_mem harm)

theorem follows_inOrder {ops : List Operation} (hops : ∀ op ∈ ops, op.Untried)
    (hkeys : ∀ S, .switch S ∈ ops → (S.arms.flatMap Arm.keys).Nodup)
    (h : ∀ op ∈ ops, ∀ c ∈ op.nested, ∀ status, A.Follows (m c) (inner c status)) :
    A.Follows (Body.conductAll A.oracle A.passes m scope index ops)
      (.inOrder A.body homes inner scope index ops status) := by
  induction ops generalizing index status with
  | nil => exact .lift (.idle .nil)
  | cons op ops ih =>
    refine Follows.append (follows_operation (hops op mem_cons_self)
      (fun S hS => hkeys S (hS ▸ mem_cons_self)) (h op mem_cons_self)) ?_
    exact ih (fun op' hop' => hops op' (.tail _ hop'))
      (fun S hS => hkeys S (.tail _ hS))
      fun op' hop' => h op' (.tail _ hop')

theorem follows_operations (hb : A.body.Sound) (huntried : A.body.Untried)
    (hkeys : ∀ s S, .switch S ∈ A.body.operations s → (S.arms.flatMap Arm.keys).Nodup)
    {depth s : Nat} (hs : A.body.Region 0 s) (hdepth : A.body.scopes.size ≤ depth + s)
    (status : Status) :
    A.Follows (A.body.conductScope A.oracle A.passes depth s)
      (.operations A.body homes depth s status) := by
  induction depth generalizing s status with
  | zero =>
    have hlt := hs.lt_size hb hb.rooted
    omega
  | succ depth ih =>
    refine follows_inOrder (huntried s hs) (hkeys s) fun op hop c hc status => ?_
    have howned := Body.mem_owned hop (Body.mem_owned_of_nested hc)
    have hgt := hb.owned_gt howned
    exact ih (.step hs howned) (by omega) status

end Stage
end ClassAssembler
