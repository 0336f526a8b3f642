import ClassAssembler.Proofs.Build.Iterating
import ClassAssembler.Proofs.Layout.Carries
import ClassAssembler.Proofs.Layout.Stretches

/-!
# Loops over arrays

A loop over an array keeps an index in a variable. Each time around it compares the index with the
length of the array, reads the element at the index, runs its body and adds one to the index.
Whatever the body does in between, index and array are what they were when it is done, since no
point of it writes them. So the loop reads the elements in order, each one once.
-/

namespace ClassAssembler

open Charted

variable {b : Body} {v : Nat}

open Plot Recorder Machine

namespace ArrayLoop

variable (L : ArrayLoop)

section plots

variable (b : Body)

def opening (status : Status) : Plot :=
  place (Lay.entryOf b L.outer) status ++
    simple b b.allocate.homes ⟨L.outer, none⟩ status.kept (.store L.index true) [⟨L.zero, []⟩] none

def testing (status : Status) (kept : List Nat) : Plot :=
  place (Lay.entryOf b L.looped) status ++
    (simple b b.allocate.homes ⟨L.looped, none⟩ [] (.insns [.arrayLength]) [⟨L.array, []⟩]
        (some L.length) ++
      (simple b b.allocate.homes ⟨L.looped, none⟩ [] .copy [⟨L.index, []⟩] (some L.checked) ++
        (simple b b.allocate.homes ⟨L.looped, none⟩ kept (.compare none (.ints .lt))
            [⟨L.checked, []⟩, ⟨L.length, []⟩] (some L.more) ++
          Plot.load b b.allocate.homes ⟨L.looped, none⟩ ⟨L.more, []⟩)))

def loading : Plot :=
  simple b b.allocate.homes ⟨L.looped, none⟩ [] .copy [⟨L.index, []⟩] (some L.current) ++
    loads b b.allocate.homes ⟨L.looped, none⟩ [⟨L.array, []⟩, ⟨L.current, []⟩]

def updating (kept : List Nat) : Plot :=
  place (Lay.againOf b L.looped) ⟨[], kept⟩ ++ (place (Lay.entryOf b L.update) ⟨[], kept⟩ ++
    (simple b b.allocate.homes ⟨L.update, none⟩ kept (.inc L.index 1) [] none ++
      place (Lay.exitOf b L.update) ⟨[], kept⟩))

end plots
end ArrayLoop

/-- A plot is laid out from one point up to another. -/
def Plot.Spans (p : Plot) (ps : List Point) (i j : Nat) : Prop :=
  ∃ n, Lies ps i (p n).points ∧ i + (p n).points.length = j

namespace Plot.Spans

variable {p q : Plot} {ps : List Point} {pt : Point} {i j : Nat}

theorem le (h : p.Spans ps i j) : i ≤ j := by
  obtain ⟨n, _, rfl⟩ := h
  exact Nat.le_add_right ..

theorem split (h : (p ++ q).Spans ps i j) : ∃ k, p.Spans ps i k ∧ q.Spans ps k j := by
  obtain ⟨n, hlies, rfl⟩ := h
  refine ⟨_, ⟨n, hlies.left, rfl⟩, (p n).next, hlies.right, ?_⟩
  rw [Nat.add_assoc, ← List.length_append]
  rfl

theorem point (h : (Plot.point pt ++ q).Spans ps i j) :
    ps[i]? = some pt ∧ q.Spans ps (i + 1) j := by
  obtain ⟨n, hlies, rfl⟩ := h
  exact ⟨hlies.head, n, hlies.tail, Nat.add_right_comm ..⟩

end Plot.Spans

/-- The entry and the operations of a scope are laid out from one point up to another. -/
def Body.LaysScope (b : Body) (s i j : Nat) : Prop :=
  ∃ depth status, b.scopes.size ≤ s + depth ∧ (place (Lay.entryOf b s) status ++
    Plot.operations b b.allocate.homes depth s status).Spans (b.points b.allocate.homes) i j

/-- An operation of a scope is laid out from one point up to another. -/
def Body.LaysOut (b : Body) (s : Nat) (op : Operation) (i j : Nat) : Prop :=
  ∃ depth status, b.scopes.size ≤ s + depth + 1 ∧ (operation b b.allocate.homes
    (Plot.operations b b.allocate.homes depth) s status op).Spans (b.points b.allocate.homes) i j

namespace Body.Iterates

variable {b : Body} {L : ArrayLoop} (h : b.Iterates L)
include h

theorem looped_owned : L.looped ∈ b.owned L.outer := by
  have hop : .loop L.looped (some L.update) ∈ b.operations L.outer := by
    rw [h.outer]
    exact .tail _ (.head _)
  exact Body.mem_owned hop (.head ..)

theorem at_header (l1 : List Operation) {l2 : List Operation} {op : Operation}
    (hop : L.header = l1 ++ op :: l2) : ∃ l3, b.operations L.looped = l1 ++ op :: l3 := by
  obtain ⟨rest, hrest⟩ := h.looped
  exact ⟨l2 ++ rest, by rw [hrest, hop]; simp⟩

theorem kind_index : (Lay.typeOf b L.index).kind = .num .int := by
  rw [Lay.typeOf, h.index]
  rfl

theorem kind_array : (Lay.typeOf b L.array).kind = .ref := by
  obtain ⟨info, hinfo, hkind⟩ := h.array
  rwa [Lay.typeOf, hinfo]

theorem kind_ints (hv : v ∈ [L.length, L.checked, L.more, L.current]) :
    (Lay.typeOf b v).kind = .num .int := by
  obtain ⟨info, hinfo, hkind⟩ := h.ints v hv
  rwa [Lay.typeOf, hinfo]

theorem outside (hb : b.Sound) {s : Nat} (hs : b.Region L.looped s) (hv : v ∈ b.defines s) :
    L.array ≠ v ∧ L.index ≠ v := by
  have hle := hs.le hb
  refine ⟨?_, ?_⟩ <;> rintro rfl
  · obtain ⟨l3, hops⟩ := h.at_header [] rfl
    obtain ⟨info, hinfo, hnone | ⟨_, hknown⟩ | ⟨c, owner, howner, hc, hparent, _, hbefore, _⟩⟩ :=
      hb.visible hops L.array (by simp [Operation.needs, Operation.operands])
    · rw [Body.owner_of_defines hb hv hinfo] at hnone
      cases hnone
    · cases hknown
    · cases Body.defines_unique hb hv hbefore
      have hlt := hb.descends hparent
      have hle' := hc.le hb.descends
      omega
  · have hown : L.index ∈ b.defines L.outer := by
      rw [Body.defines, h.outer]
      simp [Operation.defines]
    cases Body.defines_unique hb hv hown
    have hgt := hb.owned_gt h.looped_owned
    omega

theorem mem_defines : ∀ v ∈ [L.length, L.checked, L.more, L.current, L.element],
    v ∈ b.defines L.looped := by
  obtain ⟨rest, hrest⟩ := h.looped
  intro v hv
  rw [Body.defines, hrest, List.flatMap_append]
  exact List.mem_append_left _ (by simpa [ArrayLoop.header, Operation.defines] using hv)

theorem fresh (hb : b.Sound) (hv : v ∈ [L.length, L.checked, L.more, L.current, L.element]) :
    L.array ≠ v ∧ L.index ≠ v := h.outside hb .refl (h.mem_defines v hv)

theorem array_ne_index : L.array ≠ L.index := fun heq => by
  have hkind := h.kind_array
  rw [heq, h.kind_index] at hkind
  cases hkind

theorem length_ne_checked (hb : b.Sound) : L.length ≠ L.checked := by
  obtain ⟨rest, hrest⟩ := h.looped
  have hnodup := hb.defines_nodup L.looped
  rw [Body.defines, hrest, List.flatMap_append] at hnodup
  have hheader := (List.nodup_append.mp hnodup).1
  simp [ArrayLoop.header, Operation.defines] at hheader
  exact hheader.1.1

variable (hb : b.Sound) (hregion : b.Region 0 L.looped)
include hb hregion

theorem home_index : ∃ k, Lay.homeOf b.allocate.homes L.index = .slot k := by
  obtain ⟨l3, hops⟩ := h.at_header [_] rfl
  exact Body.home_variable hb hregion (hb.visible hops L.index (.head _))
    ⟨_, h.index, rfl⟩

/-- The array is in a slot, unless it is a constant. -/
theorem home_array (hconstant : Lay.homeOf b.allocate.homes L.array ≠ .constant) :
    ∃ k, Lay.homeOf b.allocate.homes L.array = .slot k := by
  obtain ⟨l3, hops⟩ := h.at_header [] rfl
  cases hhome : Lay.homeOf b.allocate.homes L.array with
  | constant => exact absurd hhome hconstant
  | slot k => exact ⟨k, rfl⟩
  | nowhere => exact absurd hhome (Body.home_read hb hregion hops (.head _))
  | stack =>
    obtain ⟨_, _, l0, action, operands, hnil⟩ :=
      Body.stack_read hb hregion hops (.head _) hhome
    cases l0 <;> cases hnil

theorem home_ne_constant (hv : v ∈ [L.length, L.checked, L.more, L.current, L.element]) :
    Lay.homeOf b.allocate.homes v ≠ .constant := by
  obtain ⟨op, hop, hdef⟩ := List.mem_flatMap.mp (h.mem_defines v hv)
  obtain ⟨l1, l2, hops⟩ := List.append_of_mem hop
  obtain ⟨slot, hgiven⟩ := Body.home_defined hb hregion hops hdef
  intro hhome
  rw [hgiven, Allocation.given] at hhome
  repeat' split at hhome
  all_goals cases hhome

/-- Only the first operand of an operation can be on the stack. -/
theorem home_ne_stack (l1 : List Operation) {l2 : List Operation} {op : Operation}
    (hop : L.header = l1 ++ op :: l2) (hv : v ∈ op.operands.map Operand.value)
    (htop : op.top? ≠ some v) : Lay.homeOf b.allocate.homes v ≠ .stack := by
  obtain ⟨l3, hops⟩ := h.at_header l1 hop
  exact fun hhome => htop (Body.stack_read hb hregion hops hv hhome).1

end Body.Iterates

namespace ArrayLoop

/-- Where the parts of the loop are among the points of a body. -/
structure Sites (b : Body) (L : ArrayLoop) where
  start : Nat
  entry : Nat
  test : Nat
  load : Nat
  again : Nat
  turn : Nat
  opens : ∃ status, (L.opening b status).Spans (b.points b.allocate.homes) start entry
  tests : ∃ status kept, (L.testing b status kept).Spans (b.points b.allocate.homes) entry test
  asks : (b.points b.allocate.homes)[test]? =
    some (.branch (.jumpIf (.zero .eq) (Lay.exitOf b L.looped)) (some ⟨L.looped, none⟩))
  loads : (L.loading b).Spans (b.points b.allocate.homes) (test + 1) load
  reads : (b.points b.allocate.homes)[load]? =
    some (.insn (.arrayLoad L.kind) .plain ⟨L.looped, none⟩)
  load_lt : load < again
  body : b.LaysScope L.looped entry again
  jumps : ∀ s op, b.Region L.looped s → op ∈ b.operations s → op ∉ L.header →
    ∃ i j, b.LaysOut s op i j ∧ load < i ∧ j ≤ again
  writes : ∀ m p v, load < m → m < again → (b.points b.allocate.homes)[m]? = some p →
    p.alters? = some v → ∃ s op, b.Region L.looped s ∧ op ∈ b.operations s ∧ v ∈ op.defines ++
      op.changes
  updates : ∃ kept, (L.updating b kept).Spans (b.points b.allocate.homes) again turn
  turns : (b.points b.allocate.homes)[turn]? =
    some (.branch (.goto (Lay.entryOf b L.looped)) (some ⟨L.outer, none⟩))
  exits : Stands Point.code? (b.points b.allocate.homes) (turn + 1) (.label (Lay.exitOf b L.looped))

theorem lies_point {ps : List Point} {k n : Nat} {pt : Point} {q : Plot}
    (h : Lies ps k ((point pt ++ q) n).points) : ps[k]? = some pt ∧ Lies ps (k + 1) (q n).points :=
  ⟨h.head, h.tail⟩

theorem plot_outer {L : ArrayLoop} (hL : b.Iterates L) (depth : Nat) (status : Status) :
    ∃ status1 tail, enclosed b (operations b b.allocate.homes (depth + 2)) L.outer status =
      L.opening b status ++ ((place (Lay.entryOf b L.looped) status1 ++
          operations b b.allocate.homes (depth + 1) L.looped status1) ++
        (L.updating b status1.kept ++ (goto ⟨L.outer, none⟩ (Lay.entryOf b L.looped) ++
          (place (Lay.exitOf b L.looped) ⟨[], status1.kept⟩ ++ tail)))) := by
  have hupdate : ∀ kept, enclosed b (operations b b.allocate.homes (depth + 1)) L.update
      ⟨[], kept⟩ = place (Lay.entryOf b L.update) ⟨[], kept⟩ ++
        (simple b b.allocate.homes ⟨L.update, none⟩ kept (.inc L.index 1) [] none ++
          place (Lay.exitOf b L.update) ⟨[], kept⟩) := fun kept => by
    simp only [enclosed, operations, hL.update, inOrder, operation, append_nil, append_assoc]
  refine ⟨?_, place (Lay.exitOf b L.outer) ⟨[], status.kept⟩, ?_⟩
  rotate_left
  rw [enclosed, operations, hL.outer]
  simp only [inOrder, operation, opening, updating, hupdate, concat, Option.toList, List.map_cons,
    List.map_nil, append_nil, append_assoc]
  rfl

theorem plot_looped {L : ArrayLoop} {rest : List Operation}
    (hrest : b.operations L.looped = L.header ++ rest) (depth : Nat) (status : Status) :
    ∃ kept status2, place (Lay.entryOf b L.looped) status ++
        operations b b.allocate.homes (depth + 1) L.looped status =
      L.testing b status kept ++
        (branch ⟨L.looped, none⟩ (.jumpIf (.zero .eq) (Lay.exitOf b L.looped)) ++
          (L.loading b ++ (insn ⟨L.looped, none⟩ (.arrayLoad L.kind) ++
            (settle b b.allocate.homes ⟨L.looped, none⟩ (some L.element) ++
              inOrder b b.allocate.homes (operations b b.allocate.homes depth) L.looped rest
                status2)))) := by
  refine ⟨?_, ?_, ?_⟩
  rotate_left 2
  simp only [operations, hrest, header, List.cons_append, List.nil_append, inOrder, operation,
    testing, loading, simple, action, insns, concat, List.map_cons, List.map_nil, append_nil,
    append_assoc]
  rfl

/-- The rest of the loop writes only what its operations write. -/
theorem tells_rest {L : ArrayLoop} (hL : b.Iterates L) {rest : List Operation}
    (hrest : b.operations L.looped = L.header ++ rest) (depth : Nat) (status : Status) :
    Tells ⟨fun _ => True, fun v => ∃ s op, b.Region L.looped s ∧ op ∈ b.operations s ∧
      v ∈ op.defines ++ op.changes, fun _ => True⟩
      (settle b b.allocate.homes ⟨L.looped, none⟩ (some L.element) ++ inOrder b b.allocate.homes
        (operations b b.allocate.homes depth) L.looped rest status) := by
  have hmem : ∀ op ∈ rest, op ∈ b.operations L.looped := fun op hop => by
    rw [hrest]
    exact List.mem_append_right _ hop
  refine .append (@Works.tells _ ⟨L.looped, none⟩ _ (works_settle fun v hv => ?_))
    (tells_inOrder (fun _ _ _ _ => trivial) (fun op hop v hv => ⟨_, op, .refl, hmem op hop, hv⟩)
      (fun _ _ _ _ => trivial) fun op hop c hc status => tells_operations depth fun t op' ht hop' =>
        ⟨fun _ _ => trivial, fun v hv => ⟨t, op', ?_, hop', hv⟩, fun _ _ => trivial⟩)
  · cases List.mem_singleton.mp hv
    obtain ⟨op, hop, hdef⟩ := List.mem_flatMap.mp (hL.mem_defines L.element (by simp))
    exact ⟨_, op, .refl, hop, List.mem_append_left _ hdef⟩
  · exact (Body.Region.of_owned (Body.mem_owned (hmem op hop) (Body.mem_owned_of_nested hc))).trans
      ht

theorem exists_sites {L : ArrayLoop} (hb : b.Sound) (hL : b.Iterates L) {here : Nat}
    (hhere : b.Region 0 here) (hop : .block L.outer ∈ b.operations here) :
    Nonempty (L.Sites b) := by
  obtain ⟨depth, status, n, hdepth, hin⟩ := Body.has_operation hb b.allocate.homes hhere hop
  obtain ⟨rest, hrest⟩ := hL.looped
  have houter : here < L.outer := hb.owned_gt (Body.mem_owned hop (.head _))
  have hgt := hb.owned_gt hL.looped_owned
  have hlt := hb.owned_lt hL.looped_owned
  obtain ⟨depth, rfl⟩ : ∃ d, depth = d + 2 := ⟨depth - 2, by omega⟩
  obtain ⟨start, hlies⟩ := Lies.of_infix hin
  obtain ⟨status1, _, hplot⟩ := plot_outer hL depth status
  rw [operation, hplot] at hlies
  have hspan : Spans _ (b.points b.allocate.homes) start _ := ⟨n, hlies, rfl⟩
  obtain ⟨entry, hopening, hspan⟩ := hspan.split
  obtain ⟨again, hbody, hspan⟩ := hspan.split
  obtain ⟨turn, hupdating, hspan⟩ := hspan.split
  obtain ⟨hturn, hspan⟩ := hspan.point
  obtain ⟨hexit, _⟩ := hspan.point
  -- The loop begins with the test and the element, and its other operations follow.
  obtain ⟨_, status2, hlooped⟩ := plot_looped hrest depth status1
  have hinside := hbody
  rw [hlooped] at hinside
  obtain ⟨test, htesting, hinside⟩ := hinside.split
  obtain ⟨htest, hinside⟩ := hinside.point
  obtain ⟨load, hloading, hinside⟩ := hinside.split
  obtain ⟨hload, hinside⟩ := hinside.point
  refine ⟨start, entry, test, load, again, turn, ⟨_, hopening⟩, ⟨_, _, htesting⟩, htest,
    hloading, hload,
    hinside.le, ⟨_, _, by omega, hbody⟩, fun s op hs hop hheader => ?_,
      fun m p v hm hm' hp hv => ?_,
    ⟨_, hupdating⟩, hturn, ⟨_, hexit, rfl⟩⟩
  · obtain ⟨first, hfirst, m, hlies, hagain⟩ := hinside.split
    have hleads := Body.leads_of_region hb hs hop
    rw [hrest] at hleads
    have hleads := (hleads.behind fun op hop => by
      simp only [header, List.mem_cons, List.not_mem_nil, or_false] at hop
      rcases hop with rfl | rfl | rfl | rfl | rfl | rfl <;> rfl).resolve_left hheader
    have hroom : b.scopes.size ≤ L.looped + depth + 1 := by omega
    obtain ⟨_, depth', status', m', hdepth', hin⟩ :=
      hleads.has hb (by simp [hrest]) b.allocate.homes hroom status2 m
    obtain ⟨i, hi, hle, hlies⟩ := hlies.among hin
    exact ⟨i, _, ⟨depth', status', hdepth', m', hlies, rfl⟩, Nat.lt_of_lt_of_le hfirst.le hi,
      hagain ▸ hle⟩
  · obtain ⟨m', hlies, hagain⟩ := hinside
    obtain ⟨q, hq, hpq⟩ := hlies.exists_mem hm (hagain ▸ hm')
    rw [hp] at hpq
    cases hpq
    exact Point.Tells.writes ((tells_rest hL hrest depth status2 _).1 p hq) hv

namespace Sites

variable {b : Body} {L : ArrayLoop} (S : L.Sites b)

theorem begins : ∃ status,
    (b.points b.allocate.homes)[S.start]? = some (.label (Lay.entryOf b L.outer)
      (some status)) := by
  obtain ⟨status, _, hlies, _⟩ := S.opens
  exact ⟨status, (lies_point hlies).1⟩

theorem enters : Stands Point.code? (b.points b.allocate.homes) S.entry
    (.label (Lay.entryOf b L.looped)) := by
  obtain ⟨_, _, _, hlies, _⟩ := S.tests
  exact ⟨_, (lies_point hlies).1, rfl⟩

theorem repeats : Stands Point.code? (b.points b.allocate.homes) S.again
    (.label (Lay.againOf b L.looped)) := by
  obtain ⟨_, _, hlies, _⟩ := S.updates
  exact ⟨_, (lies_point hlies).1, rfl⟩

theorem ordered : S.start < S.entry ∧ S.entry < S.test ∧ S.test < S.load ∧ S.again < S.turn := by
  obtain ⟨_, _, _, hentry⟩ := S.opens
  obtain ⟨_, _, _, _, htest⟩ := S.tests
  obtain ⟨_, _, hload⟩ := S.loads
  obtain ⟨_, _, _, hturn⟩ := S.updates
  refine ⟨?_, ?_, by omega, ?_⟩
  · rw [← hentry]
    exact Nat.lt_add_of_pos_right (Nat.succ_pos _)
  · rw [← htest]
    exact Nat.lt_add_of_pos_right (Nat.succ_pos _)
  · rw [← hturn]
    exact Nat.lt_add_of_pos_right (Nat.succ_pos _)

end Sites

variable {b : Body} {code : Code} {chart : Charted b code} {L : ArrayLoop} {V W : Type}
  {K : Computer V W} {data : Nat → Option V} {a : V} {w : W} {i n : Nat}

variable (K L) in
/-- What array and index are when `i` elements are done. -/
def Counts (a : V) (i : Nat) (data : Nat → Option V) : Prop :=
  data L.array = some a ∧ data L.index = some (K.int (Int32.ofNat i))

theorem Counts.renew (h : L.Counts K a i data) (hv : L.array ≠ v ∧ L.index ≠ v) (d : Option V) :
    L.Counts K a i (renew data v d) :=
  ⟨(renew_of_ne hv.1 data d).trans h.1, (renew_of_ne hv.2 data d).trans h.2⟩

/-- Numbers that are not negative compare as their values do. -/
theorem compares_lt {m n : Nat} (hm : m < 2147483648) (hn : n < 2147483648) :
    OrdTest.lt.compares (Int32.ofNat m) (Int32.ofNat n) = decide (m < n) := by
  refine decide_eq_decide.mpr ?_
  rw [Int32.lt_iff_toInt_lt, Int32.toInt_ofNat_of_lt hm, Int32.toInt_ofNat_of_lt hn]
  omega

variable (handler? : Nat → ClassName → Option Label) (hb : b.Sound) (hL : b.Iterates L)
  (hregion : b.Region 0 L.looped) (S : L.Sites b)

include hL in
theorem to_start {k : Nat} (hindex : ∃ k, Lay.homeOf b.allocate.homes L.index = .slot k)
    (hb : b.Sound) (hslot : Lay.homeOf b.allocate.homes L.array = .slot k)
    (hlive : LiveAt chart.free b.firstFree chart.points S.start)
    (ha : K.locals w (UInt16.ofNat k) = some a) : ∃ data w', L.Counts K a 0 data ∧
      chart.Goes K handler? S.start S.entry S.start w S.entry data w' := by
  obtain ⟨ki, hindex⟩ := hindex
  have hzero : Lay.homeOf b.allocate.homes L.zero = .constant := Body.home_lasting hb hL.zero rfl
  obtain ⟨status, m, hlies, hentry⟩ := S.opens
  have hplot : L.opening b status = place (Lay.entryOf b L.outer) status ++
      (point (.reads L.zero) ++ (insn ⟨L.outer, none⟩ (.constInt 1) ++
        storeInto b b.allocate.homes ⟨L.outer, none⟩ L.index)) := by
    have hliteral : Lay.literal (.int 0) = [.constInt 1] := rfl
    simp only [opening, simple, action, Plot.loads, List.map_cons, List.map_nil, concat, Plot.load,
      fetch, hzero, hL.zero, hliteral, insns, settle, append_nil, append_assoc]
  rw [hplot] at hlies hentry
  obtain ⟨hlabel, hlies⟩ := lies_point hlies
  obtain ⟨hread, hlies⟩ := lies_point hlies
  obtain ⟨hpush, hstore⟩ := lies_point hlies
  have hlast : S.start + 1 + 1 + 1 +
      (storeInto b b.allocate.homes ⟨L.outer, none⟩ L.index m).points.length = S.entry := by
    rw [← hentry]
    show _ = S.start +
      ((storeInto b b.allocate.homes ⟨L.outer, none⟩ L.index m).points.length + 1 + 1 + 1)
    omega
  have hlive' : LiveAt chart.free b.firstFree chart.points (S.start + 1 + 1) :=
    .inl (LiveAt.skip (.inl (hlive.next ⟨_, hlabel, rfl⟩ rfl)) hread rfl)
  have hlabeled := stands_of_live hlive hlabel rfl
  have hpushed := stands_of_live hlive' hpush rfl
  obtain ⟨w1, hact, hstack⟩ := K.push 1 w
  have hbegin : chart.Goes K handler? S.start S.entry S.start w (S.start + 1 + 1 + 1)
      (K.found b.allocate.homes w1) w1 := by
    refine ⟨at_found hlive' hpush w1, [(_, w), (chart.spot (S.start + 1 + 1), w)],
      .cons (step_next (stands_some_iff.mpr hlabeled.entry) (K.label _ w)) ?_, fun s hs => ?_⟩
    · rw [← hlabeled.spot_succ, ← spot_of_none hread rfl, hpushed.spot_succ]
      exact .cons (step_next (stands_some_iff.mpr hpushed.entry) hact) .nil
    · rcases List.mem_cons.mp hs with rfl | hs
      · exact ⟨.refl, hlabeled.spot_lt (by omega)⟩
      · cases List.mem_singleton.mp hs
        exact ⟨chart.spot_le (by omega), hpushed.spot_lt (by omega)⟩
  have hset : chart.Carries K handler? (K.found b.allocate.homes w1) [K.int (Int32.ofNat 0)]
      (storeInto b b.allocate.homes ⟨L.outer, none⟩ L.index) _ _ :=
    carries_storeInto ((K.kind_int _).trans hL.kind_index.symm) hindex
  obtain ⟨w2, _, hgoes⟩ := hset _ _ w1 hstore hbegin.arrives ⟨_, hstack.symm⟩
  rw [hlast] at hgoes
  refine ⟨_, w2, ⟨(renew_of_ne hL.array_ne_index _ _).trans ?_, renew_self ..⟩,
    hbegin.trans (hgoes.mono (by omega) .refl)⟩
  rw [Computer.found, hslot, ← ha]
  exact K.frame (by rw [hact]; rfl) fun _ h => by cases h; rfl

include hL in
theorem to_entry (hindex : ∃ k, Lay.homeOf b.allocate.homes L.index = .slot k)
    (hcounts : L.Counts K a i data) (h : chart.At K S.again data w) :
    ∃ data w', L.Counts K a (i + 1) data ∧
      chart.Goes K handler? S.again (S.turn + 1) S.again w S.entry data w' := by
  obtain ⟨ki, hindex⟩ := hindex
  obtain ⟨kept, n, hlies, hturn⟩ := S.updates
  have hinc : chart.Carries K handler? data []
      (simple b b.allocate.homes ⟨L.update, none⟩ kept (.inc L.index 1) [] none)
      (renew data L.index (some (K.int (Int32.ofNat (i + 1))))) [] := by
    rw [simple, action, hindex]
    refine .append (.next rfl fun _ w _ hp hat _ => ?_) .nil
    obtain ⟨σ, hmove, _⟩ := chart.surveyed.viewed.move_knownAt hp
    have hk := chart.surveyed.named_at hp _ _ _ (.head _) L.index ki rfl hindex
    obtain ⟨w', hnext, hlocal⟩ := K.inc 1
      ((hat.tells.kept _ (hmove.kept_of_takes rfl) ki hindex hk).trans hcounts.2)
    refine ⟨w', hnext, List.nil_prefix, ?_⟩
    show renew data L.index (K.found _ w' L.index) = _
    rw [Computer.found, hindex, Int32.ofNat_add]
    exact congrArg _ hlocal
  have hupdate : chart.Carries K handler? data [] (L.updating b kept) _ [] :=
    (carries_place _ _).append ((carries_place _ _).append
      (hinc.append (carries_place _ _)))
  obtain ⟨w', _, hgoes⟩ := hupdate n S.again w hlies h List.nil_prefix
  rw [hturn] at hgoes
  have hle := S.ordered.2.2.2
  exact ⟨_, _, ⟨(renew_of_ne hL.array_ne_index _ _).trans hcounts.1, renew_self ..⟩,
    (hgoes.mono .refl (Nat.le_succ _)).trans (.jump hgoes.arrives (Nat.le_of_lt hle)
      (Nat.lt_succ_self _) S.turns rfl (K.goto _ _) S.enters)⟩

include hb hL hregion

variable {k : Nat} (hslot : Lay.homeOf b.allocate.homes L.array = .slot k)
  (hlength : K.length? a = some n) (hcounts : L.Counts K a i data)
include hslot hlength hcounts

/-- The loop goes on if there is another element, and otherwise ends. -/
theorem to_test (hi : i ≤ n) (h : chart.At K S.entry data w) :
    ∃ data w', L.Counts K a i data ∧ chart.Goes K handler? S.entry (S.test + 1) S.entry w
      (if i < n then S.test + 1 else S.turn + 1) data w' := by
  have hn := K.length_lt hlength
  obtain ⟨ki, hindex⟩ := hL.home_index hb hregion
  have hkind : ∀ m, ∀ v ∈ [L.length, L.checked, L.more, L.current],
      K.kind (K.int m) = (Lay.typeOf b v).kind := fun m v hv =>
    (K.kind_int m).trans (hL.kind_ints hv).symm
  have hcounts1 := hcounts.renew (hL.fresh hb (v := L.length) (by simp))
    (some (K.int (Int32.ofNat n)))
  have hcounts2 := hcounts1.renew (hL.fresh hb (v := L.checked) (by simp))
    (some (K.int (Int32.ofNat i)))
  have hstack : Lay.homeOf b.allocate.homes L.length ≠ .stack :=
    hL.home_ne_stack hb hregion [_, _] rfl
    (by simp [Operation.operands]) (by simpa [Operation.top?] using (hL.length_ne_checked hb).symm)
  have hchecked : Charted.Gives b K
      (renew (renew data L.length (some (K.int (Int32.ofNat n)))) L.checked _) L.checked
      (K.int (Int32.ofNat i)) :=
    ⟨hL.home_ne_constant hb hregion (by simp), renew_self .., hkind _ _ (by simp)⟩
  have hmeasured : Charted.Gives b K (renew (renew data L.length _) L.checked _) L.length
      (K.int (Int32.ofNat n)) := ⟨hL.home_ne_constant hb hregion (by simp),
    (renew_of_ne (hL.length_ne_checked hb) _ (some (K.int (Int32.ofNat i)))).trans
      (renew_self data ..), hkind _ _ (by simp)⟩
  obtain ⟨status, kept, m, hlies, htest⟩ := S.tests
  obtain ⟨data3, hcounts3, hcarries⟩ : ∃ data3, L.Counts K a i data3 ∧ chart.Carries K
      handler? data []
      (L.testing b status kept) data3 [K.int (if decide (i < n) then 1 else 0)] := by
    refine ⟨_, hcounts2.renew (hL.fresh hb (v := L.more) (by simp))
      (some (K.int (if decide (i < n) then 1 else 0))), ?_⟩
    refine .append (carries_place _ _) (.append (.append (.append (carries_one ?_)
      (.append (carries_insn fun w rest hw => K.arrayLength hlength hw) .nil))
        (carries_settle (hkind _ _ (by simp)))) (.append (.append (carries_one ?_)
          (carries_settle (hkind _ _ (by simp)))) (.append (.append (.append (.append
            (carries_two hchecked hmeasured hstack) .nil) (carries_decision ?_))
              (carries_settle (hkind _ _ (by simp)))) (carries_load ?_ fun _ => rfl))))
    · exact ⟨by rw [hslot]; exact nofun, hcounts.1, (K.kind_array hlength).trans hL.kind_array.symm⟩
    · exact ⟨by rw [hindex]; exact nofun, hcounts1.2, (K.kind_int _).trans hL.kind_index.symm⟩
    · intro l w rest hw
      rw [← compares_lt (by omega) hn]
      exact K.compare .lt l hw
    · exact ⟨hL.home_ne_constant hb hregion (by simp), renew_self .., hkind _ _ (by simp)⟩
  obtain ⟨w1, ⟨rest, hrest⟩, hgoes⟩ := hcarries m _ w hlies h List.nil_prefix
  rw [htest] at hgoes
  have hle := S.ordered.2.1
  have hgoes := hgoes.mono .refl (Nat.le_succ _)
  obtain ⟨w2, hjump, _⟩ := K.jumpIf .eq (Lay.exitOf b L.looped) hrest.symm
  refine ⟨_, w2, hcounts3, hgoes.trans ?_⟩
  by_cases hlt : i < n
  · rw [if_pos hlt]
    simp only [hlt, decide_true, if_true] at hjump
    exact .next hgoes.arrives (Nat.le_of_lt hle) (Nat.lt_succ_self _) S.asks rfl hjump
  · rw [if_neg hlt]
    simp only [hlt, decide_false] at hjump
    exact .jump hgoes.arrives (Nat.le_of_lt hle) (Nat.lt_succ_self _) S.asks rfl hjump S.exits

theorem reads_element (hi : i < n) (h : chart.At K S.entry data w) :
    ∃ data w' way, L.Counts K a i data ∧ chart.Stands S.load (.insn (.arrayLoad L.kind)) ∧
      chart.At K (S.load + 1) data w' ∧ (onEntries K.act handler?).Path code.entries
        (.running (chart.spot S.entry) w) way (.running (chart.spot S.load + 1) w') ∧
      K.reads (chart.spot S.load) way = [[K.int (Int32.ofNat i), a]] := by
  obtain ⟨data1, w1, hcounts1, hgoes⟩ :=
    to_test handler? hb hL hregion S hslot hlength hcounts (Nat.le_of_lt hi) h
  rw [if_pos hi] at hgoes
  obtain ⟨ki, hindex⟩ := hL.home_index hb hregion
  have hkind : K.kind (K.int (Int32.ofNat i)) = (Lay.typeOf b L.current).kind :=
    (K.kind_int _).trans (hL.kind_ints (by simp)).symm
  have hcounts2 := hcounts1.renew (hL.fresh hb (v := L.current) (by simp))
    (some (K.int (Int32.ofNat i)))
  obtain ⟨m, hlies, hload⟩ := S.loads
  have hcarries : chart.Carries K handler? data1 [] (L.loading b) _ [K.int (Int32.ofNat i), a] :=
    .append (.append (carries_one ⟨by rw [hindex]; exact nofun, hcounts1.2,
      (K.kind_int _).trans hL.kind_index.symm⟩) (carries_settle hkind)) (carries_two
        ⟨by rw [hslot]; exact nofun, hcounts2.1, (K.kind_array hlength).trans hL.kind_array.symm⟩
        ⟨hL.home_ne_constant hb hregion (by simp), renew_self .., hkind⟩
        (hL.home_ne_stack hb hregion [_, _, _, _, _] rfl (by simp [Operation.operands])
          (by simpa [Operation.top?] using (hL.fresh hb (by simp)).1)))
  obtain ⟨w2, ⟨rest, hrest⟩, hgoes'⟩ := hcarries m _ w1 hlies hgoes.arrives List.nil_prefix
  rw [hload] at hgoes'
  obtain ⟨w3, _, hact, _⟩ := K.arrayLoad L.kind hlength hi hrest.symm
  have hordered := S.ordered
  obtain ⟨harrives, way, hpath, hway⟩ := (hgoes.mono .refl hordered.2.2.1).trans
    (hgoes'.mono (by omega) .refl)
  have hstands := harrives.stands S.reads rfl
  refine ⟨_, w3, way ++ [(chart.spot S.load, w2)], hcounts2, hstands,
    harrives.next S.reads rfl hact, hpath.append
      (.cons (step_next (stands_some_iff.mpr hstands.entry) hact) .nil), ?_⟩
  rw [K.reads_append, K.reads_eq_nil fun s hs => Nat.ne_of_lt (hway s hs).2]
  simp [Computer.reads, ← hrest]

omit hregion hslot hlength hcounts in
/-- The body of a loop writes neither its index nor its array. -/
theorem quiet (hchanges : ∀ s, b.Region L.looped s → ∀ op ∈ b.operations s,
      L.index ∉ op.changes ∧ L.array ∉ op.changes) {m : Nat} {p : Point} (hm : S.load < m)
    (hm' : m < S.again) (hp : (b.points b.allocate.homes)[m]? = some p)
    (hv : v = L.index ∨ v = L.array) : p.alters? ≠ some v := by
  intro halters
  obtain ⟨s, op, hs, hop, hmem⟩ := S.writes m p v hm hm' hp halters
  have hchange := hchanges s hs op hop
  rcases List.mem_append.mp hmem with hdef | hmem
  · have houtside := hL.outside hb hs (List.mem_flatMap_of_mem hop hdef)
    rcases hv with rfl | rfl
    · exact houtside.2 rfl
    · exact houtside.1 rfl
  · rcases hv with rfl | rfl
    · exact hchange.1 hmem
    · exact hchange.2 hmem

end ArrayLoop
end ClassAssembler
