import ClassAssembler.Proofs.Layout.Lexical
import ClassAssembler.Proofs.Layout.Recording

/-!
# Protections and their holes

A protection sends what is thrown between two labels to a handler, except in its holes.
-/

namespace ClassAssembler

open List

namespace Point

def site? : Point → Option Site
  | insn _ _ site => some site
  | branch _ site => site
  | _ => none

/-- The handler of a protection, if that catches at position `i`. -/
def catches (pos : Label → Nat) (i : Nat) : Point → Option Handler
  | protect start stop holes handler caught =>
      if pos start < i ∧ i < pos stop ∧ ∀ hole ∈ holes, ¬ (pos hole.1 < i ∧ i < pos hole.2) then
        some (handler, caught)
      else none
  | _ => none

theorem catches_eq_none {pos : Label → Nat} {i : Nat} {p : Point} (h : p.bounds = []) :
    p.catches pos i = none := by
  cases p with
  | protect start stop holes handler caught => cases h
  | _ => rfl

end Point

/-- The labels of some points, which begin at position `k`, stand where `pos` says. -/
def Located (pos : Label → Nat) (k : Nat) (ps : List Point) : Prop :=
  ∀ j l status, ps[j]? = some (.label l status) → pos l = k + j

def ends (pos : Label → Nat) (holes : List (Label × Label)) : List Nat :=
  holes.flatMap fun hole => [pos hole.1, pos hole.2]

variable {pos : Label → Nat} {k : Nat} {ps qs : List Point}

theorem mem_ends {holes : List (Label × Label)} {x : Nat} :
    x ∈ ends pos holes ↔ ∃ hole ∈ holes, x = pos hole.1 ∨ x = pos hole.2 := by
  simp [ends, mem_flatMap]

namespace Located

theorem left (h : Located pos k (ps ++ qs)) : Located pos k ps := fun j l status hj =>
  h j l status (by rw [getElem?_append_left (List.getElem?_eq_some_iff.mp hj).1, hj])

theorem right (h : Located pos k (ps ++ qs)) : Located pos (k + ps.length) qs := by
  intro j l status hj
  rw [h (ps.length + j) l status, Nat.add_assoc]
  rw [getElem?_append_right (Nat.le_add_right _ _), Nat.add_sub_cancel_left, hj]

theorem mem (h : Located pos k ps) {l : Label} (hl : l ∈ Point.placed ps) :
    k ≤ pos l ∧ pos l < k + ps.length := by
  obtain ⟨status, hmem⟩ := Point.mem_placed.mp hl
  obtain ⟨j, hj⟩ := mem_iff_getElem?.mp hmem
  have hlt := (List.getElem?_eq_some_iff.mp hj).1
  rw [h j l status hj]
  omega

end Located

namespace Plot

open Point

variable {b : Body} {G G' : Nat → Prop} {c : Nat} {Q Q' : Site → Prop}

/-- Where the holes and protections of a part of a layout lie that begins at position `k`. -/
structure Holed (b : Body) (pos : Label → Nat) (G : Nat → Prop) (Q : Site → Prop) (k : Nat)
    (s : Stretch) : Prop where
  sited : ∀ pt ∈ s.points, pt.isInsn → ∃ site, pt.site? = some site
  sites : ∀ pt ∈ s.points, ∀ site, pt.site? = some site → Q site
  inside : ∀ hole ∈ s.holes, k ≤ pos hole.start ∧ pos hole.start < k + s.points.length ∧
    k ≤ pos hole.stop ∧ pos hole.stop < k + s.points.length
  owners : ∀ hole ∈ s.holes, ∀ id ∈ hole.owners, ∃ frame site,
    Q site ∧ b.Guards frame site.scope ∧ b.tryNumber frame = id
  spaced : ∀ id, (ends pos (s.holesOf id)).Pairwise (· < ·)
  aligned : ∀ start stop holes handler caught, .protect start stop holes handler caught ∈ s.points →
    (pos start :: (ends pos holes ++ [pos stop])).Pairwise (· < ·)
  /-- A hole in a statement is where its handlers are not in force. -/
  cut : ∀ j pt site, s.points[j]? = some pt → pt.site? = some site → ∀ frame, G frame →
    ((∃ hole ∈ s.holes, b.tryNumber frame ∈ hole.owners ∧
      pos hole.start < k + j ∧ k + j < pos hole.stop) ↔ b.Escapes frame site)

/-- What is thrown in a part of a layout goes to the lexical handlers of statements inside
`c`, as far as the part has their protections, which are all inside `c`. -/
structure Routed (b : Body) (pos : Label → Nat) (G : Nat → Prop) (c : Nat) (Q : Site → Prop)
    (k : Nat) (s : Stretch) : Prop extends Holed b pos G Q k s where
  docked : Docked (fun _ => False) s
  out : ∀ j pt site, s.points[j]? = some pt → pt.site? = some site →
    s.points.filterMap (catches pos (k + j)) = b.handlersBelow site c site.scope

def Routes (b : Body) (pos : Label → Nat) (G : Nat → Prop) (c : Nat) (Q : Site → Prop)
    (p : Plot) : Prop := ∀ n k, Located pos k (p n).points → Routed b pos G c Q k (p n)

theorem ends_append (hs hs' : List (Label × Label)) :
    ends pos (hs ++ hs') = ends pos hs ++ ends pos hs' := flatMap_append

theorem mem_holesOf {s : Stretch} {id : Nat} {part : Label × Label} :
    part ∈ s.holesOf id ↔ ∃ hole ∈ s.holes, id ∈ hole.owners ∧ part = (hole.start, hole.stop) := by
  simp only [Stretch.holesOf, mem_map, mem_filter, contains_iff_mem]
  constructor
  · rintro ⟨hole, ⟨hmem, hid⟩, rfl⟩
    exact ⟨hole, hmem, hid, rfl⟩
  · rintro ⟨hole, hmem, hid, rfl⟩
    exact ⟨hole, ⟨hmem, hid⟩, rfl⟩

theorem Docked.catches_outside {s : Stretch} (h : Docked (fun _ => False) s)
    (hloc : Located pos k s.points) {i : Nat} (hi : i < k ∨ k + s.points.length ≤ i) :
    s.points.filterMap (catches pos i) = [] := by
  refine filterMap_eq_nil_iff.mpr fun pt hpt => ?_
  cases pt with
  | protect start stop holes handler caught =>
    obtain ⟨pre, post, hsplit⟩ := append_of_mem hpt
    have hbound : ∀ l ∈ (Point.protect start stop holes handler caught).bounds,
        k ≤ pos l ∧ pos l < k + s.points.length := by
      intro l hl
      refine hloc.mem ?_
      rw [hsplit, placed_append]
      exact mem_append_left _ ((h.anchored _ _ _ hsplit l hl).resolve_left id)
    have hstart := hbound start (.head ..)
    have hstop := hbound stop (.tail _ (.head ..))
    refine if_neg fun hcatches => ?_
    omega
  | _ => rfl

namespace Holed

variable {s t : Stretch}

theorem ends_mem (h : Holed b pos G Q k s) {id x : Nat} (hx : x ∈ ends pos (s.holesOf id)) :
    k ≤ x ∧ x < k + s.points.length := by
  obtain ⟨part, hpart, hx⟩ := mem_ends.mp hx
  obtain ⟨hole, hhole, _, rfl⟩ := mem_holesOf.mp hpart
  have hinside := h.inside hole hhole
  rcases hx with rfl | rfl
  · exact ⟨hinside.1, hinside.2.1⟩
  · exact hinside.2.2

theorem mono (h : Holed b pos G Q k s) (hG : ∀ frame, G' frame → G frame)
    (hQ : ∀ site, Q site → Q' site) : Holed b pos G' Q' k s where
  sited := h.sited
  sites pt hpt site hsite := hQ site (h.sites pt hpt site hsite)
  inside := h.inside
  owners hole hhole id hid := by
    obtain ⟨frame, site, hsite, hguards⟩ := h.owners hole hhole id hid
    exact ⟨frame, site, hQ site hsite, hguards⟩
  spaced := h.spaced
  aligned := h.aligned
  cut j pt site hj hsite frame hframe := h.cut j pt site hj hsite frame (hG frame hframe)

theorem gap (next : Nat) (ps : List Point)
    (hsites : ∀ pt ∈ ps, pt.isInsn = false ∧ pt.site? = none)
    (haligned : ∀ start stop holes handler caught, .protect start stop holes handler caught ∈ ps →
      (pos start :: (ends pos holes ++ [pos stop])).Pairwise (· < ·)) :
    Holed b pos G Q k ⟨ps, [], next⟩ where
  sited pt hpt hinsn := by rw [(hsites pt hpt).1] at hinsn; cases hinsn
  sites pt hpt site hsite := by rw [(hsites pt hpt).2] at hsite; cases hsite
  inside hole hhole := by cases hhole
  owners hole hhole := by cases hhole
  spaced id := List.Pairwise.nil
  aligned := haligned
  cut j pt site hj hsite := by rw [(hsites pt (mem_of_getElem? hj)).2] at hsite; cases hsite

theorem append (hs : Holed b pos G Q k s) (ht : Holed b pos G Q (k + s.points.length) t) :
    Holed b pos G Q k ⟨s.points ++ t.points, s.holes ++ t.holes, t.next⟩ := by
  refine ⟨forall_mem_append.mpr ⟨hs.sited, ht.sited⟩,
    forall_mem_append.mpr ⟨hs.sites, ht.sites⟩, fun hole hhole => ?_,
    forall_mem_append.mpr ⟨hs.owners, ht.owners⟩,
    fun id => ?_, fun start stop holes handler caught hmem => ?_,
    fun j pt site hj hsite frame hframe => ?_⟩
  · show _ ∧ _ < k + (s.points ++ t.points).length ∧ _ ∧ _ < k + (s.points ++ t.points).length
    rw [length_append]
    rcases mem_append.mp hhole with h | h
    · have := hs.inside hole h
      omega
    · have := ht.inside hole h
      omega
  · have happend : Stretch.holesOf ⟨s.points ++ t.points, s.holes ++ t.holes, t.next⟩ id =
        s.holesOf id ++ t.holesOf id := by simp [Stretch.holesOf]
    rw [happend, ends_append]
    refine pairwise_append.mpr ⟨hs.spaced id, ht.spaced id, fun x hx y hy => ?_⟩
    have hx' := hs.ends_mem hx
    have hy' := ht.ends_mem hy
    omega
  · rcases mem_append.mp hmem with h | h
    · exact hs.aligned start stop holes handler caught h
    · exact ht.aligned start stop holes handler caught h
  · have hj : (s.points ++ t.points)[j]? = some pt := hj
    rcases Nat.lt_or_ge j s.points.length with hlt | hge
    · rw [getElem?_append_left hlt] at hj
      rw [← hs.cut j pt site hj hsite frame hframe]
      constructor
      · rintro ⟨hole, hhole, hid, hstart, hstop⟩
        rcases mem_append.mp hhole with h | h
        · exact ⟨hole, h, hid, hstart, hstop⟩
        · have := ht.inside hole h
          omega
      · rintro ⟨hole, hhole, h⟩
        exact ⟨hole, mem_append_left _ hhole, h⟩
    · rw [getElem?_append_right hge] at hj
      have hpos : k + s.points.length + (j - s.points.length) = k + j := by omega
      rw [← ht.cut _ pt site hj hsite frame hframe, hpos]
      constructor
      · rintro ⟨hole, hhole, hid, hstart, hstop⟩
        rcases mem_append.mp hhole with h | h
        · have := hs.inside hole h
          omega
        · exact ⟨hole, h, hid, hstart, hstop⟩
      · rintro ⟨hole, hhole, h⟩
        exact ⟨hole, mem_append_right _ hhole, h⟩

theorem mark {owners : List Nat} {start stop : Label} {part : List Point} {holes : List Hole}
    {next : Nat}
    (h : Holed b pos G' Q' k ⟨.label start none :: (part ++ [.label stop none]), holes, next⟩)
    (hloc : Located pos k (.label start none :: (part ++ [.label stop none])))
    (hQ : ∀ site, Q' site → Q site)
    (howners : ∀ id ∈ owners, ∃ frame site, Q site ∧ b.Guards frame site.scope ∧
      b.tryNumber frame = id)
    (hnew : ∀ hole ∈ holes, ∀ id ∈ owners, id ∉ hole.owners)
    (hcut : ∀ frame, G frame → (b.tryNumber frame ∈ owners ∧ ∀ site, Q' site →
      b.Escapes frame site) ∨ (b.tryNumber frame ∉ owners ∧ G' frame)) :
    Holed b pos G Q k ⟨.label start none :: (part ++ [.label stop none]),
      holes ++ [⟨owners, start, stop⟩], next⟩ := by
  have hstart : pos start = k := hloc 0 start none rfl
  have hstop : pos stop = k + (part.length + 1) := hloc (part.length + 1) stop none (by simp)
  refine ⟨h.sited, fun pt hpt site hsite => hQ site (h.sites pt hpt site hsite),
    fun hole hhole => ?_,
    fun hole hhole id hid => ?_, fun id => ?_, h.aligned, fun j pt site hj hsite frame hframe => ?_⟩
  · rcases mem_append.mp hhole with hhole | hhole
    · exact h.inside hole hhole
    · cases mem_singleton.mp hhole
      simp [hstart, hstop]
  · rcases mem_append.mp hhole with hhole | hhole
    · obtain ⟨frame, site, hsite, hguards⟩ := h.owners hole hhole id hid
      exact ⟨frame, site, hQ site hsite, hguards⟩
    · cases mem_singleton.mp hhole
      exact howners id hid
  · by_cases hid : id ∈ owners
    · have hnil : holes.filter (fun hole => hole.owners.contains id) = [] :=
        filter_eq_nil_iff.mpr fun hole hhole => by
          rw [contains_iff_mem]
          exact hnew hole hhole id hid
      have hself : owners.contains id = true := contains_iff_mem.mpr hid
      simp only [Stretch.holesOf, filter_append, hnil, filter_cons, hself]
      simp [ends, hstart, hstop]
    · have hself : owners.contains id = false := by
        rw [← Bool.not_eq_true, contains_iff_mem]
        exact hid
      have hspaced := h.spaced id
      simp only [Stretch.holesOf, filter_append, filter_cons, hself] at hspaced ⊢
      simpa using hspaced
  · have hQ' := h.sites pt (mem_of_getElem? hj) site hsite
    rcases hcut frame hframe with ⟨hmem, hescapes⟩ | ⟨hnot, hG'⟩
    · -- An instruction stands between the labels.
      refine iff_of_true ⟨_, mem_append_right _ (.head _), hmem, ?_⟩
        (hescapes site hQ')
      have hj0 : j ≠ 0 := by
        rintro rfl
        cases hj
        cases hsite
      have hjlt : j < (part ++ [Point.label stop none]).length + 1 :=
        (List.getElem?_eq_some_iff.mp hj).1
      rw [length_append, length_singleton] at hjlt
      have hjlast : j ≠ part.length + 1 := by
        rintro rfl
        rw [getElem?_cons_succ, getElem?_append_right .refl, Nat.sub_self] at hj
        cases hj
        cases hsite
      show pos start < k + j ∧ k + j < pos stop
      omega
    · rw [← h.cut j pt site hj hsite frame hG']
      constructor
      · rintro ⟨hole, hhole, hid, hopen⟩
        rcases mem_append.mp hhole with hhole | hhole
        · exact ⟨hole, hhole, hid, hopen⟩
        · cases mem_singleton.mp hhole
          exact absurd hid hnot
      · rintro ⟨hole, hhole, hopen⟩
        exact ⟨hole, mem_append_left _ hhole, hopen⟩

end Holed

namespace Routed

variable {p q : Plot} {n : Nat} {s : Stretch}

theorem append (hp : Routed b pos G c Q k (p n))
    (hq : Routed b pos G c Q (k + (p n).points.length) (q (p n).next))
    (hloc : Located pos k ((p ++ q) n).points) : Routed b pos G c Q k ((p ++ q) n) := by
  refine ⟨hp.toHoled.append hq.toHoled, hp.docked.append hq.docked, fun j pt site hj hsite => ?_⟩
  have hj : ((p n).points ++ (q (p n).next).points)[j]? = some pt := hj
  rw [append_apply, filterMap_append]
  rcases Nat.lt_or_ge j (p n).points.length with hlt | hge
  · rw [getElem?_append_left hlt] at hj
    rw [hp.out j pt site hj hsite, hq.docked.catches_outside hloc.right (.inl (by omega)),
      List.append_nil]
  · rw [getElem?_append_right hge] at hj
    have hpos : k + (p n).points.length + (j - (p n).points.length) = k + j := by omega
    have hout := hq.out _ pt site hj hsite
    rw [hpos] at hout
    rw [hout, hp.docked.catches_outside hloc.left (.inr (by omega)), List.nil_append]

theorem mono (h : Routed b pos G c Q k s) {c' : Nat} (hG : ∀ frame, G' frame → G frame)
    (hQ : ∀ site, Q site → Q' site)
    (hc : ∀ site, Q site → b.handlersBelow site c site.scope = b.handlersBelow site c' site.scope) :
    Routed b pos G' c' Q' k s where
  toHoled := h.toHoled.mono hG hQ
  docked := h.docked
  out j pt site hj hsite := by
    rw [h.out j pt site hj hsite, hc site (h.sites pt (mem_of_getElem? hj) site hsite)]

end Routed

/-- A site where the handlers of all statements around are in force, and no others. -/
structure Plain (b : Body) (G : Nat → Prop) (c : Nat) (site : Site) : Prop where
  guards : ∀ frame, G frame → ¬ b.Escapes frame site
  handlers : b.handlersBelow site c site.scope = []

namespace Routes

variable {p q : Plot} {site : Site}

theorem mono (h : Routes b pos G c Q p) {c' : Nat} (hG : ∀ frame, G' frame → G frame)
    (hQ : ∀ site, Q site → Q' site)
    (hc : ∀ site, Q site → b.handlersBelow site c site.scope = b.handlersBelow site c' site.scope) :
    Routes b pos G' c' Q' p := fun n k hloc => (h n k hloc).mono hG hQ hc

theorem append (hp : Routes b pos G c Q p) (hq : Routes b pos G c Q q) :
    Routes b pos G c Q (p ++ q) := fun n k hloc =>
  (hp n k hloc.left).append (hq _ _ hloc.right) hloc

theorem flat (h : Every (fun pt => pt.bounds = [] ∧ (pt.isInsn → ∃ site, pt.site? = some site) ∧
      ∀ site, pt.site? = some site → Q site ∧ Plain b G c site) (fun _ => False) p) :
    Routes b pos G c Q p := by
  intro n k hloc
  obtain ⟨hpoints, hholes⟩ := h n
  have hcatches : ∀ i, (p n).points.filterMap (catches pos i) = [] := fun i =>
    filterMap_eq_nil_iff.mpr fun pt hpt => catches_eq_none (hpoints pt hpt).1
  have hflat : Flat p := h.mono (fun _ h => h.1) fun _ h => h
  refine ⟨⟨fun pt hpt => (hpoints pt hpt).2.1, fun pt hpt site hsite =>
    ((hpoints pt hpt).2.2 site hsite).1, fun hole hhole => (hholes hole hhole).elim,
    fun hole hhole => (hholes hole hhole).elim, fun id => ?_,
    fun start stop holes handler caught hmem => ?_, fun j pt site hj hsite frame hframe => ?_⟩,
    hflat.docked, fun j pt site hj hsite => ?_⟩
  · rw [Stretch.holesOf, eq_nil_iff_forall_not_mem.mpr hholes]
    exact List.Pairwise.nil
  · have hbounds := (hpoints _ hmem).1
    cases hbounds
  · refine iff_of_false ?_
      (((hpoints pt (mem_of_getElem? hj)).2.2 site hsite).2.guards frame hframe)
    rintro ⟨hole, hhole, _⟩
    exact hholes hole hhole
  · rw [hcatches, ((hpoints pt (mem_of_getElem? hj)).2.2 site hsite).2.handlers]

theorem atSite (h : AtSite site p) (hQ : Q site) (hplain : Plain b G c site) :
    Routes b pos G c Q p := by
  refine flat (h.mono (fun pt hpt => ?_) fun _ h => h)
  cases hpt with
  | insn | touch | branch =>
    refine ⟨rfl, fun _ => ⟨site, rfl⟩, fun site' hsite => ?_⟩
    cases hsite
    exact ⟨hQ, hplain⟩
  | _ => exact ⟨rfl, fun h => (by cases h), fun _ h => by cases h⟩

theorem label {l : Label} {status : Option Status} : Routes b pos G c Q (point (.label l status)) :=
  flat (.point ⟨rfl, fun h => (by cases h), fun _ h => by cases h⟩)

theorem nil : Routes b pos G c Q nil := flat .nil

theorem concat {α : Type} {as : List α} {p : α → Plot} (h : ∀ a ∈ as, Routes b pos G c Q (p a)) :
    Routes b pos G c Q (concat (as.map p)) := concat_of_append nil append h

theorem hole (G' : Nat → Prop) (Q' : Site → Prop) {owners : List Nat}
    (h : Routes b pos G' c Q' p) (hQ : ∀ site, Q' site → Q site)
    (howners : ∀ id ∈ owners, ∃ frame site, Q site ∧ b.Guards frame site.scope ∧
      b.tryNumber frame = id)
    (hnew : ∀ n k, Holed b pos G' Q' k (p n) → ∀ hole ∈ (p n).holes, ∀ id ∈ owners,
      id ∉ hole.owners)
    (hcut : ∀ frame, G frame → (b.tryNumber frame ∈ owners ∧ ∀ site, Q' site →
      b.Escapes frame site) ∨ (b.tryNumber frame ∉ owners ∧ G' frame)) :
    Routes b pos G c Q (Plot.hole owners p) := by
  intro n k hloc
  have heq :
      Plot.hole owners p n = ⟨.label ⟨n⟩ none :: ((p (n + 2)).points ++ [.label ⟨n + 1⟩ none]),
      (p (n + 2)).holes ++ [⟨owners, ⟨n⟩, ⟨n + 1⟩⟩], (p (n + 2)).next⟩ := by
    simp [Plot.hole, fresh, border, point, Plot.mark]
  have hloc' :
    Located pos k ([.label ⟨n⟩ none] ++ ((p (n + 2)).points ++ [.label ⟨n + 1⟩ none])) := by
    rw [heq] at hloc
    exact hloc
  have hpart : Routed b pos G' c Q' k
      ⟨.label ⟨n⟩ none :: ((p (n + 2)).points ++ [.label ⟨n + 1⟩ none]), (p (n + 2)).holes,
        (p (n + 2)).next⟩ := by
    have hrouted := ((label.append h).append label : Routes b pos G' c Q'
      (border ⟨n⟩ ++ p ++ border ⟨n + 1⟩)) (n + 2) k (by simpa [border, point] using hloc')
    simpa [border, point] using hrouted
  have hinner := h (n + 2) (k + 1) hloc'.right.left
  have hdocked : Docked (fun _ => False) (Plot.hole owners p n) := .hole hinner.docked
  rw [heq] at hloc hdocked ⊢
  exact ⟨hpart.toHoled.mark hloc hQ howners (hnew _ _ hinner.toHoled) hcut, hdocked, hpart.out⟩

end Routes
end Plot
end ClassAssembler
