import GraphPattern.Proofs.Renumbering
import GraphPattern.Proofs.Rule.Replay

/-!
# Renumbering matches

The matches of a vertex are alike if they are the same rows in another order and under other numbers
of matches. What a rule makes of alike matches is alike: no rule looks at the numbers of matches but
to compare them, and the numbers that it gives are as good as any others.
-/

namespace GraphPattern

open Table Renumbering Matches

/-- The same matches, up to the order of their rows and a bijective renaming of their numbers. -/
def Alike (X Y : Rows × Rows) : Prop :=
  ∃ σ, Renames [1,σ] X.1 Y.1 ∧ Renames [1,σ] X.2 Y.2

theorem Alike.refl (X : Rows × Rows) : Alike X X :=
  ⟨1,(Renames.refl X.1).congr fun i => by rcases i with _|_|i <;> rfl,
    (Renames.refl X.2).congr fun i => by rcases i with _|_|i <;> rfl⟩

namespace Renames

variable {φ : Renumbering} {σ ρ τ : Equiv.Perm Int} {A B C D : Rows}

theorem named (h : Renames φ A B) (name : String) : Renames φ (named name A) (named name B) :=
  h.filter fun row => by simp only [cell_act,Value.renumber_eq_string]

theorem laid (h : Renames φ A B) : Renames (φ.columns [0,1,2]) (laid A) (laid B) :=
  h.map fun _ _ => cells_act

theorem labelled (h : Renames φ A B) (name : String) :
    Renames φ (labelled name A) (labelled name B) :=
  h.map fun _ _ => (act_append (Value.renumber_string name)).symm

/-- Links that are found stand between matches as they are numbered at both ends. -/
theorem along (near far : Nat) (sameMatch : Bool) (links : Rows) (h : Renames [1,σ] A B)
    (h' : Renames [1,ρ] C D) (hs : sameMatch = true → σ = ρ) :
    Renames [σ,ρ] (along near far sameMatch links A C) (along near far sameMatch links B D) := by
  have hfirst : Renames [σ] (joinRows [0] [near] [(.left,1),(.right,0),(.right,far)] A links)
      (joinRows [0] [near] [(.left,1),(.right,0),(.right,far)] B links) :=
    (h.join (refl links) [0] [near] _ (congrArg (fun x => [x]) (perm_nil near).symm)).congr
      fun i => by
      rcases i with _|_|_|i
      · rfl
      · rfl
      · exact perm_nil far
      · rfl
  refine (hfirst.join h' _ _ _ ?_).congr fun i => by rcases i with _|_|_|i <;> rfl
  cases sameMatch with
  | false => rfl
  | true =>
    rw [hs rfl]
    rfl

theorem linked (directed sameMatch : Bool) (links : Rows) (h : Renames [1,σ] A B)
    (h' : Renames [1,ρ] C D) (hs : sameMatch = true → σ = ρ) :
    Renames [σ,ρ] (linked directed sameMatch links A C) (linked directed sameMatch links B D) := by
  have hforward := along 1 2 sameMatch links h h' hs
  cases directed with
  | true => exact hforward
  | false =>
    have hbackward : Renames [σ,ρ] (Matches.laid (Matches.along 2 1 sameMatch links A C))
        (Matches.laid (Matches.along 2 1 sameMatch links B D)) :=
      (along 2 1 sameMatch links h h' hs).laid.congr fun i => by rcases i with _|_|_|i <;> rfl
    exact ((hforward.append hbackward).distinct [0,1,2]).congr fun i => by
      rcases i with _|_|_|i <;> rfl

theorem joined (bounds : Annotation) (h : Renames [σ,ρ] A B) :
    Renames [σ,ρ] (joined bounds A) (joined bounds B) := by
  have hwithin : ∀ row, within bounds (cell (act [σ,ρ] row) 2) = within bounds (cell row 2) :=
    fun row => by
      rw [cell_act]
      exact congrArg (within bounds) (Value.renumber_one _)
  exact ((h.count [0,1]).filter hwithin).distinct [0,1]

theorem kept (h : Renames [1,σ] A B) (h' : Renames [σ] C D) :
    Renames [1,σ] (kept A C) (kept B D) :=
  (h.join h' _ _ _ rfl).congr fun i => by rcases i with _|_|_|i <;> rfl

end Renames

namespace Rule

variable {σ ρ : Equiv.Perm Int} {X X' Z Z' : Rows × Rows} {links : Rows} {x y z : Item}
  {ends : EdgeEnds}

theorem AbsorbSelfLoop.alike (h : Alike X X') :
    Alike (result links y ends X) (result links y ends X') := by
  obtain ⟨σ,ho,hl⟩ := h
  have hfound : Renames [σ,σ] (linked ends.directed true links (named ends.sourceName X.1)
      (named ends.targetName X.1)) (linked ends.directed true links (named ends.sourceName X'.1)
      (named ends.targetName X'.1)) := .linked _ _ links (ho.named _) (ho.named _) fun _ => rfl
  have hremaining := hfound.distinct [0]
  refine ⟨σ,ho.kept hremaining,(hl.kept hremaining).append ?_⟩
  exact ((hfound.distinct [2,0]).labelled _).laid.congr fun i => by rcases i with _|_|_|i <;> rfl

/-- The new matches are numbered anew, in whatever order the pairs stand. -/
theorem CollapseEdge.alike_outcome {name : String} {bounds : Option Annotation} {found found' : Rows}
    (hfound : Renames [σ,ρ] found found') (hX : Renames [1,σ] X.1 X'.1)
    (hX' : Renames [1,σ] X.2 X'.2) (hZ : Renames [1,ρ] Z.1 Z'.1) (hZ' : Renames [1,ρ] Z.2 Z'.2) :
    Alike (outcome name found (pairs bounds found) X Z)
      (outcome name found' (pairs bounds found') X' Z') := by
  obtain ⟨τ,hpairs⟩ : ∃ τ, Renames [σ,ρ,τ] (pairs bounds found) (pairs bounds found') := by
    unfold pairs
    cases bounds with
    | some bounds =>
      refine (hfound.joined bounds).exists_numbered fun row hr => ?_
      obtain ⟨r,-,rfl⟩ := mem_distinctRows.mp hr
      rfl
    | none =>
      refine (hfound.distinct [0,1]).exists_numbered fun row hr => ?_
      obtain ⟨r,-,rfl⟩ := mem_distinctRows.mp hr
      rfl
  have hsource : ∀ {A B : Rows}, Renames [1,σ] A B →
      Renames [1,τ] (moved 0 2 A (pairs bounds found)) (moved 0 2 B (pairs bounds found')) :=
    fun h => (h.join hpairs _ _ _ rfl).congr fun i => by rcases i with _|_|_|i <;> rfl
  have htarget : ∀ {A B : Rows}, Renames [1,ρ] A B →
      Renames [1,τ] (laid (moved 1 2 A (pairs bounds found)))
        (laid (moved 1 2 B (pairs bounds found'))) :=
    fun h => (h.join hpairs _ _ _ rfl).laid.congr fun i => by rcases i with _|_|_|i <;> rfl
  have hlaid : ∀ {A B : Rows}, Renames [1,τ] A B → Renames [1,τ] (laid A) (laid B) :=
    fun h => h.laid.congr fun i => by rcases i with _|_|_|i <;> rfl
  have hedges := ((hfound.join hpairs [0,1] [0,1] [(.left,2),(.right,2)] rfl).distinct
    [0,1]).labelled name
  exact ⟨τ,(hsource hX).append (htarget hZ),
    hedges.append ((hlaid (hsource hX')).append (htarget hZ'))⟩

theorem CollapseEdge.alike (hX : Alike X X') (hZ : Alike Z Z') :
    Alike (result links x y ends X Z) (result links x y ends X' Z') := by
  obtain ⟨σ,ho,hl⟩ := hX
  obtain ⟨ρ,ho',hl'⟩ := hZ
  by_cases hn : x.hasName ends.sourceName = true
  · simp only [result,if_pos hn]
    exact alike_outcome (.linked _ _ links (ho.named _) (ho'.named _)
      fun h => absurd h Bool.false_ne_true) ho hl ho' hl'
  · simp only [result,if_neg hn]
    exact alike_outcome (.linked _ _ links (ho'.named _) (ho.named _)
      fun h => absurd h Bool.false_ne_true) ho' hl' ho hl

/-- Which of the matches remain depends on how many partners they have, not on their numbers. -/
theorem AbsorbAnnotatedVertex.alike_outcome {name : String} {least m n : Nat}
    {found found' pairs pairs' : Rows} {α β : Equiv.Perm Int} (hfound : Renames [α,β] found found')
    (hpairs : Renames [α,β] pairs pairs') (hm : perm [α,β] m = σ) (hn : perm [α,β] n = ρ)
    (hX : Renames [1,σ] X.1 X'.1) (hX' : Renames [1,σ] X.2 X'.2) (hZ : Renames [1,ρ] Z.1 Z'.1)
    (hZ' : Renames [1,ρ] Z.2 Z'.2) :
    Alike (outcome name least m n found pairs X Z) (outcome name least m n found' pairs' X' Z') := by
  have hkey : Renumbering.columns [α,β] [m] = [σ] := congrArg (fun x => [x]) hm
  have hremaining : Renames [σ] (remaining least m pairs X.1) (remaining least m pairs' X'.1) := by
    unfold remaining
    by_cases h : 0 < least
    · rw [if_pos h,if_pos h]
      refine (hkey ▸ hpairs.count [m]).filter fun row => ?_
      rw [cell_act]
      exact congrArg (Comparison.ge.holds · _) (Value.renumber_one _)
    · rw [if_neg h,if_neg h]
      exact hX.distinct [1]
  have hlive := hpairs.join hremaining [m] [0] [(.left,0),(.left,1)] hkey
  have hlinks := hfound.join hlive [0,1] [0,1] [(.left,2),(.left,m)] rfl
  have hedges := ((hlinks.distinct [0,1]).congr (χ:=[1,σ]) fun i => by
    rcases i with _|_|i
    · rfl
    · exact hm
    · rfl).labelled name
  have hmoved : ∀ {A B : Rows}, Renames [1,ρ] A B → Renames [1,σ]
      (laid (moved n m A (joinRows [m] [0] [(.left,0),(.left,1)] pairs (remaining least m pairs X.1))))
      (laid (moved n m B
        (joinRows [m] [0] [(.left,0),(.left,1)] pairs' (remaining least m pairs' X'.1)))) :=
    fun h => (h.join hlive [1] [n] _ (congrArg (fun x => [x]) hn.symm)).laid.congr
      fun i => by
        rcases i with _|_|_|i
        · rfl
        · exact hm
        · rfl
        · rfl
  have honce : ∀ {A B : Rows}, Renames [1,σ] A B →
      Renames [1,σ] (distinctRows [0,1,2] A) (distinctRows [0,1,2] B) :=
    fun h => (h.distinct [0,1,2]).congr fun i => by rcases i with _|_|_|i <;> rfl
  have hlaid : ∀ {A B : Rows}, Renames [1,σ] A B → Renames [1,σ] (laid A) (laid B) :=
    fun h => h.laid.congr fun i => by rcases i with _|_|_|i <;> rfl
  exact ⟨σ,honce ((hX.kept hremaining).append (hmoved hZ)),
    honce ((hX'.kept hremaining).append ((hmoved hZ').append (hlaid hedges)))⟩

theorem AbsorbAnnotatedVertex.alike (hX : Alike X X') (hZ : Alike Z Z') :
    Alike (result links x y z ends X Z) (result links x y z ends X' Z') := by
  obtain ⟨σ,ho,hl⟩ := hX
  obtain ⟨ρ,ho',hl'⟩ := hZ
  by_cases hn : x.hasName ends.sourceName = true
  · have hfound := Renames.linked ends.directed false links (ho.named ends.sourceName)
      (ho'.named ends.targetName) nofun
    simp only [result,if_pos hn]
    exact alike_outcome hfound (hfound.joined _) rfl rfl ho hl ho' hl'
  · have hfound := Renames.linked ends.directed false links (ho'.named ends.sourceName)
      (ho.named ends.targetName) nofun
    simp only [result,if_neg hn]
    exact alike_outcome hfound (hfound.joined _) rfl rfl ho hl ho' hl'

theorem ApplyUpperLimit.alike {item : String} {most : Nat} (h : Alike X X') :
    Alike (result item most X) (result item most X') := by
  obtain ⟨σ,ho,hl⟩ := h
  have hcounts : Renames [σ] (countRows [0] (distinctRows [1,0] (named item X.1)))
      (countRows [0] (distinctRows [1,0] (named item X'.1))) :=
    ((ho.named item).distinct [1,0]).count [0]
  let exceeds (row : List Value) : Bool := Comparison.gt.holds (cell row 1) (.int most)
  have hexceeds : ∀ row, exceeds (act [σ] row) = exceeds row := fun row =>
    congrArg (Comparison.gt.holds · _) ((cell_act _).trans (Value.renumber_one _))
  have hexcess : Renames [σ] _ _ := hcounts.filter hexceeds
  exact ⟨σ,ho.antiJoin hexcess _ _ rfl,hl.antiJoin hexcess _ _ rfl⟩

theorem ProcessConstraint.renames_valuesOf {s : Store} {kind : SourceKind} {name : String}
    {attr : Option String} {A B : Rows} (h : Renames [1,σ] A B) :
    Renames [σ] (valuesOf s kind name attr A) (valuesOf s kind name attr B) := by
  cases attr with
  | none => exact ((h.named _).distinct [1,0]).congr fun i => by rcases i with _|_|i <;> rfl
  | some attr =>
    exact ((h.named _).join (.refl _) [0] [0] _ rfl).congr fun i => by
      rcases i with _|_|i <;> rfl

theorem ProcessConstraint.renames_holding (s : Store) (kind : SourceKind) (operator : Comparison)
    (left right : Operand) {A B : Rows} (h : Renames [1,σ] A B) :
    Renames [σ] (holding s kind operator A left right) (holding s kind operator B left right) := by
  have hcell : ∀ (row : List Value) (i : Nat), cell (act [σ] row) (i+1) = cell row (i+1) :=
    fun row i => by
      rw [cell_act]
      exact Value.renumber_one _
  cases left with
  | item name attr =>
    cases right with
    | item name' attr' =>
      refine Renames.filter (((renames_valuesOf h).join (renames_valuesOf h) [0] [0] _
        rfl).congr fun i => by rcases i with _|_|_|i <;> rfl) fun row => ?_
      simp only [hcell]
    | literal value => exact (renames_valuesOf h).filter fun row => by simp only [hcell]
  | literal value =>
    cases right with
    | item name attr => exact (renames_valuesOf h).filter fun row => by simp only [hcell]
    | literal value' => exact List.Perm.nil

theorem ProcessConstraint.alike {s : Store} {k : Constraint} {operator : Comparison}
    (h : Alike X X') : Alike (result s k operator X) (result s k operator X') := by
  obtain ⟨σ,ho,hl⟩ := h
  by_cases hk : k.onEdges = true
  · have hremaining := (renames_holding s .link operator k.left k.right hl).distinct [0]
    simp only [result,if_pos hk]
    exact ⟨σ,ho.kept hremaining,hl.kept hremaining⟩
  · have hremaining := (renames_holding s .object operator k.left k.right ho).distinct [0]
    simp only [result,if_neg hk]
    exact ⟨σ,ho.kept hremaining,hl.kept hremaining⟩

end Rule

end GraphPattern
