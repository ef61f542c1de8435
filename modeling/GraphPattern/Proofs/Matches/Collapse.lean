import GraphPattern.Proofs.Matches.Pairs
import GraphPattern.Proofs.Query.History

/-!
# Collapsing an edge as a counted join

What a run does when it replays the collapse of an edge, whatever the tables of the two vertices
hold: objects may have the same name in one match, and a match may have links and no objects.
-/

namespace GraphPattern.Rule.CollapseEdge

open Step Matches Workspace

/-- A composite vertex has an entry in the registry, with rows of matches under its names, none of
them twice. -/
structure Tabled (w : Workspace) (x : Item) (X : Rows × Rows) : Prop where
  /-- The vertex is composite. -/
  composite : x.isComposite = true
  /-- These are the rows of its entry. -/
  entry : w.Entry x.joinedName X.1 X.2
  /-- They are rows of matches, and none occurs twice. -/
  tidy : Tidy X
  /-- They are under names of the vertex. -/
  named : ∀ g, (bound X g).Within {n | n ∈ x.names}

variable {w w' : Workspace} {r : Replay} {v e u : ItemId} {rest : List ItemId} {x y z : Item}
  {ends : EdgeEnds} {X Z S T : Rows × Rows}

/-- Rows of matches that are written down, all of them under names of the vertex. -/
theorem tabled_of_cells {O L : List MatchRow} (hc : x.isComposite = true)
    (he : w.Entry x.joinedName (O.map MatchRow.cells) (L.map MatchRow.cells)) (hO : O.Nodup)
    (hL : L.Nodup) (hn : ∀ t ∈ O ++ L, t.name ∈ x.names) :
    Tabled w x (O.map MatchRow.cells,L.map MatchRow.cells) where
  composite := hc
  entry := he
  tidy := by
    refine ⟨cells_rowsOf,fun kind => ?_⟩
    cases kind
    · exact hO.map cells_injective
    · exact hL.map cells_injective
  named := by
    rintro g kind n ⟨i,hi⟩
    cases kind with
    | object =>
      obtain ⟨t,ht,he⟩ := List.mem_map.mp hi
      cases cells_injective he
      exact hn _ (List.mem_append_left L ht)
    | link =>
      obtain ⟨t,ht,he⟩ := List.mem_map.mp hi
      cases cells_injective he
      exact hn _ (List.mem_append_right O ht)

theorem Tabled.held_eq (h : Tabled w x X) : held x = [x.joinedName] := by
  rw [held,if_pos h.composite]

theorem Tabled.mem_keys (h : Tabled w x X) : x.joinedName ∈ w.registry.keys := h.entry.mem_keys

/-- The matches that a replay reads are those of the entry. -/
theorem Tabled.eq_of_supplies (h : Tabled w x X) {Y : Rows × Rows} (hY : w.Supplies x Y) :
    Y = X := by
  rw [Supplies,if_pos h.composite] at hY
  obtain ⟨h₁,h₂⟩ := hY.unique h.entry
  exact Prod.ext h₁ h₂

/-- The registry has two different entries for the vertices, and no other one under the name of the
result. -/
def Ready (w : Workspace) (r : Replay) (x z : Item) : Prop :=
  x.joinedName ≠ z.joinedName ∧ (r.result.joinedName ∈ w.registry.keys →
    r.result.joinedName = x.joinedName ∨ r.result.joinedName = z.joinedName)

theorem ready_iff (hX : Tabled w x X) (hZ : Tabled w z Z) : Ready w r x z ↔
    w.Offers (held x ++ held z) ∧
      r.result.joinedName ∉ w.registry.keys.filter (· ∉ held x ++ held z) := by
  rw [hX.held_eq,hZ.held_eq,Ready,Offers]
  simp only [List.singleton_append,List.nodup_cons,List.not_mem_nil,
    not_false_eq_true,List.nodup_nil,and_true,List.mem_cons,or_false,forall_eq_or_imp,forall_eq,
    hX.mem_keys,hZ.mem_keys,List.mem_filter,decide_eq_true_eq,not_and,not_not]

/-- A replay answers with the name of the result. -/
theorem answer_of_replay {a : Option String} (h : replay r w = .ok a w') :
    a = some r.result.joinedName := by
  rw [replay] at h
  obtain ⟨_,_,-,h⟩ := bind_eq_ok.mp h
  obtain ⟨_,_,-,h⟩ := bind_eq_ok.mp h
  obtain ⟨_,_,-,h⟩ := bind_eq_ok.mp h
  obtain ⟨_,_,-,h⟩ := bind_eq_ok.mp h
  cases h
  rfl

/-- The result joins the matches in the direction in which the edge is written, whichever of the two
vertices comes first. -/
theorem Tabled.couples_result (hs : w.store.Keyed) (hq : r.before.WellFormed) (hvu : v ≠ u)
    (hx : r.before.item? v = some x) (hy : r.before.item? e = some y)
    (hz : r.before.item? u = some z) (he : y.ends? = some ends) (hX : Tabled w x X)
    (hZ : Tabled w z Z)
    (hends : (S,T) = (X,Z) ∧ ends.sourceName ∈ x.names ∧ ends.targetName ∈ z.names ∨
      (S,T) = (Z,X) ∧ ends.sourceName ∈ z.names ∧ ends.targetName ∈ x.names) :
    Couples w.store y ends.directed ends.sourceName ends.targetName S T
      (result (w.store.linkRows y.condition) x y ends X Z) y.joinedName := by
  have hedge : y.isComposite = false := by
    rw [Item.isComposite,Item.kind_edge_iff.mpr ⟨ends,he⟩]
    rfl
  -- Names tell the edge from both vertices, and the vertices from each other.
  have hfresh : ∀ {i t}, r.before.item? i = some t → t.isComposite = true →
      y.joinedName ∉ {m | m ∈ t.names} := by
    intro i t ht hc hm
    have hi := hq.named.disjoint ht hy hm
      (by rw [(hq.named.named hy).names_eq hedge]; exact List.mem_singleton_self _)
    rw [hi,hy] at ht
    cases ht
    rw [hedge] at hc
    cases hc
  have happart : Disjoint {m | m ∈ x.names} {m | m ∈ z.names} :=
    Set.disjoint_left.mpr fun m hm hm' => hvu (hq.named.disjoint hx hz hm hm')
  have hxy := hfresh hx hX.composite
  have hzy := hfresh hz hZ.composite
  rcases hends with ⟨hST,ha,-⟩|⟨hST,ha,-⟩
  · cases hST
    have hsource : x.hasName ends.sourceName = true := decide_eq_true ha
    simp only [result,hsource,if_true]
    exact couples_outcome hs hX.tidy hZ.tidy hX.named hZ.named happart ⟨hxy,hzy⟩ _ _ _
  · cases hST
    have hsource : x.hasName ends.sourceName = false :=
      decide_eq_false fun hm => Set.disjoint_left.mp happart hm ha
    simp only [result,hsource,Bool.false_eq_true,if_false]
    exact couples_outcome hs hZ.tidy hX.tidy hZ.named hX.named happart.symm ⟨hzy,hxy⟩ _ _ _

/-- The entries of both vertices give way to one entry, which has a match for every pair of matches
that enough links join. The replay fails in one case only: the names of the vertices or of the
result clash in the registry. -/
theorem replay_couples (hw : w.Sound) (hs : w.store.Keyed) (hq : r.before.WellFormed)
    (hi : r.application.items = v :: e :: u :: rest) (hvu : v ≠ u)
    (hx : r.before.item? v = some x) (hy : r.before.item? e = some y)
    (hz : r.before.item? u = some z) (he : y.ends? = some ends) (hX : Tabled w x X)
    (hZ : Tabled w z Z)
    (hends : (S,T) = (X,Z) ∧ ends.sourceName ∈ x.names ∧ ends.targetName ∈ z.names ∨
      (S,T) = (Z,X) ∧ ends.sourceName ∈ z.names ∧ ends.targetName ∈ x.names) :
    (Ready w r x z → ∃ w' X', replay r w = .ok (some r.result.joinedName) w' ∧
      w.Wrote [x.joinedName,z.joinedName] r.result.joinedName X'.1 X'.2 w' ∧
      Couples w.store y ends.directed ends.sourceName ends.targetName S T X' y.joinedName) ∧
    (¬Ready w r x z → ∃ err w', replay r w = .error err w') := by
  have h := outcome_replay hw hi hx hy hz he
  rw [← ready_iff hX hZ,hX.held_eq,hZ.held_eq] at h
  rw [Outcome] at h
  split at h
  · rename_i a w' ha
    obtain ⟨hr,X',Z',hX',hZ',hwrote⟩ := h
    rw [hX.eq_of_supplies hX',hZ.eq_of_supplies hZ'] at hwrote
    rw [answer_of_replay ha] at ha
    exact ⟨fun _ => ⟨w',_,ha,hwrote,hX.couples_result hs hq hvu hx hy hz he hZ hends⟩,
      fun hn => absurd hr hn⟩
  · rename_i err w' ha
    exact ⟨fun hr => absurd hr h,fun _ => ⟨err,w',ha⟩⟩

/-- Two composite vertices with an undirected edge that allows no less than three links. -/
def adjoining : Replay where
  before := (Query.bare "q" "").edited
    [.addVertex .root ⟨.bare ["A","B","e"] (.vertex true []),
        @Item.Made.composite ["A","B","e"] _ rfl⟩,
      .addVertex .root ⟨.bare ["C"] (.vertex true []),@Item.Made.composite ["C"] _ rfl⟩,
      .addEdge .root ⟨{ Item.bare ["f"] (.edge ⟨none,none,"C","B",false⟩) with
        bounds := some ⟨some 3,none⟩ },.bounds _ (@Item.Made.edge "f" "C" "B" false _ rfl)⟩]
  application := ⟨[⟨0⟩,⟨2⟩,⟨1⟩],["A.B.e","f","C"],none⟩
  result := ⟨"A.B.C.e.f",["A","B","C","e","f"]⟩

/-- Matches with an object at both ends of the edge, with two objects under one name, and with a link
but no object. -/
def crowded : Workspace where
  store := { Store.empty with
    created := 4
    tables := ⟨[(⟨1⟩,⟨Column.matched,[⟨5,1,"A"⟩,⟨1,1,"B"⟩,⟨3,1,"B"⟩,⟨1,2,"B"⟩].map MatchRow.cells⟩),
      (⟨2⟩,⟨Column.matched,[⟨9,1,"e"⟩,⟨9,7,"e"⟩].map MatchRow.cells⟩),
      (⟨3⟩,⟨Column.matched,[⟨2,1,"C"⟩,⟨3,1,"C"⟩].map MatchRow.cells⟩),
      (⟨4⟩,⟨Column.matched,[].map MatchRow.cells⟩)]⟩
    objects := ⟨[(1,.empty),(2,.empty),(3,.empty),(5,.empty)]⟩
    links := ⟨[(6,⟨1,2,.empty⟩),(7,⟨2,1,.empty⟩),(8,⟨3,3,.empty⟩),(9,⟨5,1,.empty⟩)]⟩ }
  registry := ⟨[("A.B.e",⟨⟨1⟩,⟨2⟩⟩),("C",⟨⟨3⟩,⟨4⟩⟩)]⟩
  scratch := []

theorem sound_crowded : crowded.Sound := sound_of_entries (by decide) (by decide)

/-- A link between one object and itself is one link, and links count in both directions: the first
match has three of them, the second one only two. -/
theorem replay_couples_crowded : adjoining.before.WellFormed ∧ crowded.Sound ∧
    ∃ w', ∃ X' : Rows × Rows, replay adjoining crowded = .ok (some "A.B.C.e.f") w' ∧
      crowded.Wrote ["A.B.e","C"] "A.B.C.e.f" X'.1 X'.2 w' ∧ w'.registry.keys = ["A.B.C.e.f"] ∧
      X'.1 = [⟨2,1,"C"⟩,⟨3,1,"C"⟩,⟨5,1,"A"⟩,⟨1,1,"B"⟩,⟨3,1,"B"⟩].map MatchRow.cells ∧
      X'.2 = [⟨7,1,"f"⟩,⟨8,1,"f"⟩,⟨6,1,"f"⟩,⟨9,1,"e"⟩].map MatchRow.cells := by
  have hq : adjoining.before.WellFormed := ((Query.wellFormed_bare "q" "").edited _).1
  have hX := tabled_of_cells (w:=crowded) (x:={ Item.bare ["A","B","e"] (.vertex true [⟨2⟩]) with
    container := some .root }) rfl ⟨_,rfl,rfl,rfl⟩ (by decide) (by decide) (by decide)
  have hZ := tabled_of_cells (w:=crowded) (x:={ Item.bare ["C"] (.vertex true [⟨2⟩]) with
    container := some .root }) rfl ⟨_,rfl,rfl,rfl⟩ (by decide) (by decide) (by decide)
  obtain ⟨w',X',hw',hwrote⟩ : ∃ w', ∃ X' : Rows × Rows,
      replay adjoining crowded = .ok (some "A.B.C.e.f") w' ∧
        crowded.Wrote ["A.B.e","C"] "A.B.C.e.f" X'.1 X'.2 w' := by
    obtain ⟨w',X',hw',hwrote,-⟩ := (replay_couples (r:=adjoining) sound_crowded
      ⟨by decide,by decide⟩ hq rfl (by decide) rfl rfl rfl rfl hX hZ
      (.inr ⟨rfl,by decide,by decide⟩)).1 ⟨by decide,by decide⟩
    exact ⟨w',X',hw',hwrote⟩
  refine ⟨hq,sound_crowded,w',X',hw',hwrote,hwrote.keys.trans (by decide),?_⟩
  have hend : rowsAfter? (replay adjoining) crowded "A.B.C.e.f" =
      some (some ([⟨2,1,"C"⟩,⟨3,1,"C"⟩,⟨5,1,"A"⟩,⟨1,1,"B"⟩,⟨3,1,"B"⟩].map MatchRow.cells),
        some ([⟨7,1,"f"⟩,⟨8,1,"f"⟩,⟨6,1,"f"⟩,⟨9,1,"e"⟩].map MatchRow.cells)) := by decide +kernel
  rw [hwrote.entry.rowsAfter?_eq hw'] at hend
  simpa using hend

end GraphPattern.Rule.CollapseEdge
