import GraphPattern.Proofs.Search.First

/-!
# What a search does, trial by trial

A search is a recursion over vertices, rules and applications that may end early at every turn.
Here it is told as a relation: a part of a search at a state works through a list of trials, one
after another, and a trial either leads to a known state or discovers a state at which the next part
begins. What every trial keeps true is then an induction over this relation, and the order in which
the rules are asked is a list that can be named.
-/

namespace GraphPattern

open Step

/-- One way in which a search reduces a query. -/
structure Trial where
  /-- The vertex about which a rule is asked. -/
  vertex : ItemId
  /-- The rule. -/
  rule : Rule
  /-- The way in which it applies. -/
  application : Application

namespace Trial

/-- The answers to a list of questions, one behind the other. -/
def gather {α β : Type} (list : α → Except Error (List β)) (as : List α) :
    Except Error (List β) := do
  return (← as.mapM list).flatten

/-- What a rule lists at a vertex. -/
def ofRule (q : Query) (vertex : ItemId) (rule : Rule) : Except Error (List Trial) := do
  return (← rule.applications q vertex).map (Trial.mk vertex rule)

/-- What all rules list at a vertex, rule by rule. -/
def ofRules (rules : List Rule) (q : Query) (vertex : ItemId) : Except Error (List Trial) :=
  gather (ofRule q vertex) rules

/-- All that rules list at a query: vertex by vertex, rule by rule and application by
application. -/
def ofQuery (rules : List Rule) (q : Query) : Except Error (List Trial) :=
  gather (ofRules rules q) (q.vertices .whole)

theorem gather_cons {α β : Type} {l : α → Except Error (List β)} {a : α} {as : List α}
    {bs cs : List β} (ha : l a = .ok bs) (has : gather l as = .ok cs) :
    gather l (a :: as) = .ok (bs ++ cs) := by
  rw [gather] at has ⊢
  rw [List.mapM_cons,ha]
  cases hm : as.mapM l with
  | error e =>
    rw [hm] at has
    cases has
  | ok ls =>
    rw [hm] at has
    cases has
    rfl

theorem gather_single {α β : Type} (f : α → β) (as : List α) :
    gather (fun a => .ok [f a]) as = .ok (as.map f) := by
  induction as with
  | nil => rfl
  | cons a as ih => exact gather_cons (l:=fun a => .ok [f a]) rfl ih

/-- A trial is one of those that rules list at a query. -/
structure Listed (rules : List Rule) (q : Query) (t : Trial) : Prop where
  /-- It is about a vertex of the query. -/
  vertex : t.vertex ∈ q.vertices .whole
  /-- Its rule is one of those that are given. -/
  rule : t.rule ∈ rules
  /-- The rule listed the application. -/
  application : ∃ as, t.rule.applications q t.vertex = .ok as ∧ t.application ∈ as

end Trial

/-- The trial that a step carries out. -/
def SearchStep.trial (x : SearchStep) : Trial := ⟨x.vertex,x.rule,x.application⟩

/-- The trials that the steps of a state carry out, in the order of the steps. -/
def SearchGraph.trials (g : SearchGraph) (s : StateId) : List (Option Trial) :=
  (g.out s).map fun e => (g.step? e).map SearchStep.trial

/-- Whether a search goes on after a part of it. -/
def SearchConfig.continues (config : SearchConfig) : SearchOutcome → Bool
  | .solved => config.exhaustive
  | .exhausted => true
  | .capped => false

/-- The outcome of two parts of a search, one after the other. -/
def SearchOutcome.followedBy : SearchOutcome → SearchOutcome → SearchOutcome
  | .solved, .exhausted => .solved
  | _, o => o

/-- A search that goes on after two parts goes on after the second one. -/
theorem continues_second {config : SearchConfig} {o o' : SearchOutcome}
    (h : config.continues o = true) (h' : config.continues (o.followedBy o') = true) :
    config.continues o' = true := by
  cases o with
  | capped => cases h
  | exhausted => exact h'
  | solved => cases o' with
    | exhausted => rfl
    | solved => exact h'
    | capped => exact h'

namespace Search

open SearchGraph

/-- Reduce the query of a state in the way of a trial. -/
def attempt (s : StateId) (q : Query) (t : Trial) : SearchAction (Option StateId) :=
  reduce s q t.vertex t.rule t.application

/-- A part of a search, at a state with a query, works through trials, one after another, and ends
with an outcome. It may leave out trials that are listed only if it does not go on. -/
inductive Works (rules : List Rule) (config : SearchConfig) :
    StateId → Query → List Trial → SearchProgress → SearchOutcome → SearchProgress → Prop
  /-- There is nothing to do. -/
  | rest {s : StateId} {q : Query} {p : SearchProgress} : Works rules config s q [] p .exhausted p
  /-- A trial led to a known state. -/
  | known {s : StateId} {q : Query} {t : Trial} {p p' : SearchProgress}
    (listed : t.Listed rules q) (led : attempt s q t p = .ok none p') :
    Works rules config s q [t] p .exhausted p'
  /-- A trial discovered a state, and that is one too many. -/
  | capped {s u : StateId} {q : Query} {t : Trial} {p p' : SearchProgress}
    (listed : t.Listed rules q) (led : attempt s q t p = .ok (some u) p')
    (full : config.exceeds p'.graph.states.size = true) :
    Works rules config s q [t] p .capped p'
  /-- A trial discovered a goal. -/
  | goal {s u : StateId} {q : Query} {t : Trial} {p p' : SearchProgress}
    (listed : t.Listed rules q) (led : attempt s q t p = .ok (some u) p')
    (room : config.exceeds p'.graph.states.size = false) (goal : p'.graph.isGoal u = true) :
    Works rules config s q [t] p .solved p'
  /-- A trial discovered a state, at which the next part of the search has ended. -/
  | new {s u : StateId} {q : Query} {t : Trial} {ts : List Trial} {st : SearchState}
    {o : SearchOutcome} {p p₁ p' : SearchProgress} (listed : t.Listed rules q)
    (led : attempt s q t p = .ok (some u) p₁)
    (room : config.exceeds p₁.graph.states.size = false) (state : p₁.graph.state? u = some st)
    (aimless : st.isGoal = false) (below : Works rules config u st.query ts p₁ o p')
    (all : config.continues o = true → Trial.ofQuery rules st.query = .ok ts) :
    Works rules config s q [t] p o p'
  /-- One part came after another. -/
  | append {s : StateId} {q : Query} {ts us : List Trial} {o o' : SearchOutcome}
    {p p₁ p' : SearchProgress} (first : Works rules config s q ts p o p₁)
    (more : config.continues o = true) (second : Works rules config s q us p₁ o' p') :
    Works rules config s q (ts ++ us) p (o.followedBy o') p'

variable {rules : List Rule} {config : SearchConfig} {q₀ q : Query} {s u : StateId}
  {t : Trial} {ts : List Trial} {o : SearchOutcome} {p p' : SearchProgress}

/-- A part of a search works through trials, and through all of a list if the search goes on. -/
def WorksThrough (rules : List Rule) (config : SearchConfig) (s : StateId) (q : Query)
    (list : Except Error (List Trial)) (p : SearchProgress) (o : SearchOutcome)
    (p' : SearchProgress) : Prop :=
  ∃ ts, Works rules config s q ts p o p' ∧ (config.continues o = true → list = .ok ts)

/-- Having found a goal before changes nothing but the outcome. -/
theorem tryAll_solved_eq {α : Type} {explore : α → SearchAction SearchOutcome} {as : List α}
    (h : tryAll config explore .solved as p = .ok o p') :
    ∃ o', tryAll config explore .exhausted as p = .ok o' p' ∧ o = SearchOutcome.solved.followedBy o' := by
  induction as generalizing p with
  | nil =>
    cases h
    exact ⟨.exhausted,rfl,rfl⟩
  | cons a as ih =>
    rw [tryAll,bind_eq_ok] at h
    obtain ⟨o₁,p₁,h₁,h⟩ := h
    rw [tryAll,bind_of_ok h₁]
    cases o₁ with
    | capped =>
      cases h
      exact ⟨.capped,rfl,rfl⟩
    | exhausted => exact ih h
    | solved =>
      refine ⟨o,h,?_⟩
      simp only at h
      split at h
      · have hne := tryAll_solved h
        cases o with
        | exhausted => exact absurd rfl hne
        | solved => rfl
        | capped => rfl
      · cases h
        rfl

/-- Alternatives are worked through if each of them is. -/
theorem tryAll_works {α : Type} {explore : α → SearchAction SearchOutcome}
    {list : α → Except Error (List Trial)} {as : List α}
    (h : ∀ a ∈ as, ∀ p o p', explore a p = .ok o p' → WorksThrough rules config s q (list a) p o p')
    (ho : tryAll config explore .exhausted as p = .ok o p') :
    WorksThrough rules config s q (Trial.gather list as) p o p' := by
  induction as generalizing p o with
  | nil =>
    cases ho
    exact ⟨[],.rest,fun _ => rfl⟩
  | cons a as ih =>
    rw [tryAll,bind_eq_ok] at ho
    obtain ⟨o₁,p₁,h₁,ho⟩ := ho
    obtain ⟨ts,hts,hall⟩ := h a List.mem_cons_self p o₁ p₁ h₁
    -- What is left is worked through after the first alternative.
    have hrest : ∀ {o'}, config.continues o₁ = true →
        tryAll config explore .exhausted as p₁ = .ok o' p' →
        WorksThrough rules config s q (Trial.gather list (a :: as)) p (o₁.followedBy o') p' := by
      intro o' hmore h'
      obtain ⟨us,hus,hall'⟩ := ih (fun b hb => h b (List.mem_cons_of_mem _ hb)) h'
      exact ⟨ts ++ us,.append hts hmore hus,fun hc =>
        Trial.gather_cons (hall hmore) (hall' (continues_second hmore hc))⟩
    cases o₁ with
    | capped =>
      cases ho
      exact ⟨ts,hts,fun hc => by cases hc⟩
    | exhausted => exact hrest rfl ho
    | solved =>
      simp only at ho
      split at ho
      · rename_i hex
        obtain ⟨o',h',rfl⟩ := tryAll_solved_eq ho
        exact hrest hex h'
      · rename_i hex
        cases ho
        exact ⟨ts,hts,fun hc => absurd hc hex⟩

/-- A trial is worked through if exploring the states that it may discover is. -/
theorem explore_works {depth : Nat} (hd : ∀ {u st p o p'}, p.graph.state? u = some st →
      expand rules config depth u p = .ok o p' →
      (st.isGoal = true ∧ o = .solved ∧ p' = p) ∨ (st.isGoal = false ∧
        WorksThrough rules config u st.query (Trial.ofQuery rules st.query) p o p'))
    (ht : t.Listed rules q)
    (ho : explore rules config depth s q t.vertex t.rule t.application p = .ok o p') :
    Works rules config s q [t] p o p' := by
  rw [explore,bind_eq_ok] at ho
  obtain ⟨target,p₁,hled,ho⟩ := ho
  cases target with
  | none =>
    cases ho
    exact .known ht hled
  | some u =>
    rw [pursue,bind_of_ok (get_apply p₁)] at ho
    split at ho
    · rename_i hfull
      cases ho
      exact .capped ht hled hfull
    · rename_i hroom
      have hroom := Bool.eq_false_iff.mpr hroom
      obtain ⟨-,q',st,hst,-⟩ := reduce_new_live hled
      rcases hd hst ho with ⟨hgoal,rfl,rfl⟩|⟨hgoal,ts,hts,hall⟩
      · refine .goal ht hled hroom ?_
        rw [isGoal,hst]
        exact hgoal
      · exact .new ht hled hroom hst hgoal hts hall

/-- What one rule lists at a vertex is worked through. -/
theorem ask_works {depth : Nat} (hd : ∀ {u st p o p'}, p.graph.state? u = some st →
      expand rules config depth u p = .ok o p' →
      (st.isGoal = true ∧ o = .solved ∧ p' = p) ∨ (st.isGoal = false ∧
        WorksThrough rules config u st.query (Trial.ofQuery rules st.query) p o p'))
    {vertex : ItemId} {rule : Rule} (hv : vertex ∈ q.vertices .whole) (hr : rule ∈ rules)
    (ho : ask rules config depth s q vertex rule p = .ok o p') :
    WorksThrough rules config s q (Trial.ofRule q vertex rule) p o p' := by
  obtain ⟨as,has,ho⟩ := tryAll_of_ask ho
  have hlist : Trial.ofRule q vertex rule =
      Trial.gather (fun a => .ok [Trial.mk vertex rule a]) as := by
    rw [Trial.ofRule,has]
    exact (Trial.gather_single (Trial.mk vertex rule) as).symm
  rw [hlist]
  refine tryAll_works (fun a ha p o p' h => ?_) ho
  exact ⟨_,explore_works (t:=⟨vertex,rule,a⟩) hd ⟨hv,hr,as,has,ha⟩ h,fun _ => rfl⟩

/-- Exploring a state ends at once if the state is a goal. Otherwise it works through all that the
rules list there. The induction is on the depth that is left. -/
theorem expand_works (rules : List Rule) (config : SearchConfig) :
    ∀ (depth : Nat) {s : StateId} {st : SearchState} {p p' : SearchProgress} {o : SearchOutcome},
      p.graph.state? s = some st → expand rules config depth s p = .ok o p' →
      (st.isGoal = true ∧ o = .solved ∧ p' = p) ∨ (st.isGoal = false ∧
        WorksThrough rules config s st.query (Trial.ofQuery rules st.query) p o p')
  | 0, _, _, _, _, _, _, h => by cases h
  | depth+1, s, st, p, p', o, hs, h => by
    rw [expand_succ rules config depth hs] at h
    split at h
    · rename_i hgoal
      cases h
      exact .inl ⟨hgoal,rfl,rfl⟩
    · rename_i hgoal
      refine .inr ⟨Bool.eq_false_iff.mpr hgoal,tryAll_works (fun vertex hv p o p' h => ?_) h⟩
      exact tryAll_works (fun rule hr p o p' h =>
        ask_works (expand_works rules config depth) hv hr h) h

/-! ## What every trial keeps -/

theorem attempt_continues (ht : t.Listed rules q) : Continues rules q₀ s q (attempt s q t) := by
  obtain ⟨as,has,ha⟩ := ht.application
  exact reduce_continues ht.vertex ht.rule has ha

/-- Trials at a state keep the graph and add to that state and to new ones only. -/
theorem Works.continues (h : Works rules config s q ts p o p') (hk : p.graph.Kept rules q₀)
    (hq : p.graph.Shows s q) : p'.graph.Kept rules q₀ ∧ p.graph.Extends s p'.graph := by
  induction h with
  | rest => exact ⟨hk,.refl _ _⟩
  | known listed led => exact attempt_continues listed _ _ _ hk hq led
  | capped listed led => exact attempt_continues listed _ _ _ hk hq led
  | goal listed led => exact attempt_continues listed _ _ _ hk hq led
  | new listed led room state aimless below all ih =>
    obtain ⟨hk₁,he₁⟩ := attempt_continues listed _ _ _ hk hq led
    obtain ⟨hk',he'⟩ := ih hk₁ ⟨_,state,rfl⟩
    exact ⟨hk',he₁.of_new hq.live (reduce_new_live led).1 he'⟩
  | append first more second ih₁ ih₂ =>
    obtain ⟨hk₁,he₁⟩ := ih₁ hk hq
    obtain ⟨hk',he'⟩ := ih₂ hk₁ (hq.grows he₁.grows)
    exact ⟨hk',he₁.trans he'⟩

/-! ## The number of states -/

/-- A trial adds a state exactly if it discovers one. -/
theorem size_of_attempt {target : Option StateId} (h : attempt s q t p = .ok target p') :
    p'.graph.states.size = p.graph.states.size+if target.isSome then 1 else 0 := by
  obtain ⟨r,result,-,-,⟨known,rfl,-,-,hp'⟩|⟨rfl,-,hp'⟩⟩ := reduce_cases h
  · rw [hp',size_addStep]
    rfl
  · rw [hp',size_addStep,size_addState]
    rfl

/-- A number of states is within what is allowed, or nothing was added to the start. -/
def Roomy (config : SearchConfig) (states : Nat) : Prop :=
  states = 1 ∨ 1<states ∧ config.exceeds states = false

/-- A number of states is more than allowed, and it was allowed before the last one was added. -/
def Crowded (config : SearchConfig) (states : Nat) : Prop :=
  config.exceeds states = true ∧ ∃ before, Roomy config before ∧ states = before+1

theorem Roomy.le {states most : Nat} (h : Roomy config states) (hm : config.maxStates = some most) :
    states ≤ max most 1 := by
  rcases h with rfl|⟨-,h⟩
  · exact Nat.le_max_right _ _
  · rw [SearchConfig.exceeds,hm,Option.any_some,decide_eq_false_iff_not,Nat.not_lt] at h
    exact Nat.le_trans h (Nat.le_max_left _ _)

/-- Trials stay within the number of states that is allowed, unless they end because the last state
that was discovered is one too many. -/
theorem Works.roomy (h : Works rules config s q ts p o p')
    (hp : Roomy config p.graph.states.size) :
    if o = .capped then Crowded config p'.graph.states.size
    else Roomy config p'.graph.states.size := by
  have hpos : ∀ {n}, Roomy config n → 1 ≤ n := fun h => by
    rcases h with rfl|⟨h,-⟩ <;> omega
  have hnew : ∀ {s u q t} {p p' : SearchProgress}, attempt s q t p = .ok (some u) p' →
      Roomy config p.graph.states.size → config.exceeds p'.graph.states.size = false →
      Roomy config p'.graph.states.size := fun led hp room => by
    refine .inr ⟨?_,room⟩
    rw [size_of_attempt led]
    exact Nat.lt_succ_of_le (hpos hp)
  induction h with
  | rest => exact hp
  | known listed led =>
    rw [size_of_attempt led]
    exact hp
  | capped listed led full => exact ⟨full,_,hp,size_of_attempt led⟩
  | goal listed led room => exact hnew led hp room
  | new listed led room state aimless below all ih => exact ih (hnew led hp room)
  | @append s q ts us o o' p p₁ p' first more second ih₁ ih₂ =>
    have hne : o ≠ .capped := fun h => by
      rw [h] at more
      cases more
    have h₁ := ih₁ hp
    rw [if_neg hne] at h₁
    have h₂ := ih₂ h₁
    have hsame : o.followedBy o' = .capped ↔ o' = .capped := by
      cases o <;> cases o' <;> simp [SearchOutcome.followedBy]
    simp only [hsame]
    exact h₂

/-! ## Goals -/

/-- A goal was discovered between two progresses. -/
def Discovers (p p' : SearchProgress) (u : StateId) : Prop :=
  p'.graph.Live u ∧ ¬p.graph.Live u ∧ p'.graph.isGoal u = true

theorem discovers_trans {p₁ : SearchProgress} (h : p.graph.Grows p₁.graph)
    (h' : p₁.graph.Grows p'.graph) :
    Discovers p p' u ↔ Discovers p p₁ u ∨ Discovers p₁ p' u := by
  constructor
  · rintro ⟨hlive,hnot,hgoal⟩
    by_cases h₁ : p₁.graph.Live u
    · exact .inl ⟨h₁,hnot,isGoal_grows h₁ h' ▸ hgoal⟩
    · exact .inr ⟨hlive,h₁,hgoal⟩
  · rintro (⟨hlive,hnot,hgoal⟩|⟨hlive,hnot,hgoal⟩)
    · exact ⟨hlive.grows h',hnot,(isGoal_grows hlive h').trans hgoal⟩
    · exact ⟨hlive,fun hu => hnot (hu.grows h),hgoal⟩

/-- The only state that a trial discovers is the one that it answers with. -/
theorem live_of_attempt {target : Option StateId} (hs : p.graph.Live s)
    (h : attempt s q t p = .ok target p') (u : StateId) :
    p'.graph.Live u ↔ p.graph.Live u ∨ target = some u := by
  obtain ⟨e,x,-,-,⟨rfl,-,-,hlive⟩|⟨rfl,-,-,-,hlive⟩⟩ := reduce_added hs h
  · rw [hlive]
    exact ⟨.inl,fun h => h.resolve_right nofun⟩
  · rw [hlive]
    exact or_congr_right ⟨fun h => congrArg some h.symm,fun h => (Option.some.inj h).symm⟩

/-- A search goes on without a goal, and it has found one if it says so. If it stops at the first
one, it has found no other. -/
theorem Works.goals (h : Works rules config s q ts p o p') (hk : p.graph.Kept rules q₀)
    (hq : p.graph.Shows s q) :
    (o = .exhausted → ∀ u, ¬Discovers p p' u) ∧
    (o = .solved → (∃ u, Discovers p p' u) ∧
      (config.exhaustive = false → ∀ u v, Discovers p p' u → Discovers p p' v → u = v)) := by
  induction h with
  | rest => exact ⟨fun _ u hu => hu.2.1 hu.1,nofun⟩
  | known listed led =>
    refine ⟨fun _ u hu => ?_,nofun⟩
    rcases (live_of_attempt hq.live led u).mp hu.1 with h|h
    · exact hu.2.1 h
    · cases h
  | capped => exact ⟨nofun,nofun⟩
  | @goal s u q t p p' listed led room goal =>
    have hlive := live_of_attempt hq.live led
    have honly : ∀ {v}, Discovers p p' v → v = u := fun hv =>
      (Option.some.inj (((hlive _).mp hv.1).resolve_left hv.2.1)).symm
    refine ⟨nofun,fun _ => ⟨⟨u,(hlive u).mpr (.inr rfl),(reduce_new_live led).1,goal⟩,?_⟩⟩
    exact fun _ v w hv hw => (honly hv).trans (honly hw).symm
  | @new s u q t ts st o p p₁ p' listed led room state aimless below all ih =>
    obtain ⟨hk₁,he₁⟩ := attempt_continues listed _ _ _ hk hq led
    obtain ⟨-,he'⟩ := below.continues hk₁ ⟨_,state,rfl⟩
    -- The state that the trial has discovered is no goal.
    have hsame : ∀ v, Discovers p p' v ↔ Discovers p₁ p' v := fun v => by
      rw [discovers_trans he₁.grows he'.grows]
      refine or_iff_right fun hv => ?_
      cases ((live_of_attempt hq.live led v).mp hv.1).resolve_left hv.2.1
      have hgoal := hv.2.2
      rw [isGoal,state,Option.any_some,aimless] at hgoal
      cases hgoal
    simp only [hsame]
    exact ih hk₁ ⟨_,state,rfl⟩
  | @append s q ts us o o' p p₁ p' first more second ih₁ ih₂ =>
    obtain ⟨hk₁,he₁⟩ := first.continues hk hq
    have hq₁ := hq.grows he₁.grows
    obtain ⟨-,he'⟩ := second.continues hk₁ hq₁
    have hsplit := fun v => discovers_trans (u:=v) he₁.grows he'.grows
    obtain ⟨hnone,hsome⟩ := ih₁ hk hq
    obtain ⟨hnone',hsome'⟩ := ih₂ hk₁ hq₁
    cases o with
    | capped => cases more
    | exhausted =>
      have hsame : ∀ v, Discovers p p' v ↔ Discovers p₁ p' v := fun v =>
        (hsplit v).trans (or_iff_right (hnone rfl v))
      simp only [hsame]
      exact ⟨hnone',hsome'⟩
    | solved =>
      have hex : config.exhaustive = true := more
      obtain ⟨v,hv⟩ := (hsome rfl).1
      refine ⟨fun ho => ?_,fun _ => ⟨⟨v,(hsplit v).mpr (.inl hv)⟩,fun hfalse => ?_⟩⟩
      · cases o' <;> cases ho
      · rw [hex] at hfalse
        cases hfalse

/-! ## Finished states -/

/-- A state is finished with: it is a goal, or its steps carry out, in order, all that the rules
list there. -/
def Finished (rules : List Rule) (g : SearchGraph) (s : StateId) : Prop :=
  g.isGoal s = true ∨ ∃ st ts, g.state? s = some st ∧ Trial.ofQuery rules st.query = .ok ts ∧
    g.trials s = ts.map some

/-- The trials of a state stay the same where nothing is added to it. -/
theorem trials_extends {g h : SearchGraph} (hf : g.Faithful rules q₀) (hg : g.Extends s h)
    (hu : g.Live u) (hne : u ≠ s) : h.trials u = g.trials u := by
  rw [SearchGraph.trials,SearchGraph.trials,hg.other hu hne]
  refine List.map_congr_left fun e he => ?_
  obtain ⟨st,hst⟩ := hu
  rw [out_of_some hst] at he
  obtain ⟨x,hx,-⟩ := (hf.listed hst).mp he
  rw [hx,hg.grows.step hx]

theorem Finished.extends {g h : SearchGraph} (hu : Finished rules g u) (hf : g.Faithful rules q₀)
    (hg : g.Extends s h) (hlive : g.Live u) (hne : u ≠ s) : Finished rules h u := by
  rcases hu with hgoal|⟨st,ts,hst,hts,htrials⟩
  · exact .inl ((isGoal_grows hlive hg.grows).trans hgoal)
  · obtain ⟨st',hst',hq⟩ := hg.grows.state hst
    exact .inr ⟨st',ts,hst',hq ▸ hts,(trials_extends hf hg hlive hne).trans htrials⟩

/-- A trial adds a step that carries it out behind the steps of the state. -/
theorem trials_of_attempt {target : Option StateId} (hf : p.graph.Faithful rules q₀)
    (hs : p.graph.Live s) (hg : p.graph.Grows p'.graph) (h : attempt s q t p = .ok target p') :
    p'.graph.trials s = p.graph.trials s ++ [some t] := by
  obtain ⟨e,x,ha,⟨hv,hr,happ⟩,-⟩ := reduce_added hs h
  have ht : x.trial = t := by rw [SearchStep.trial,hv,hr,happ]
  rw [SearchGraph.trials,SearchGraph.trials,ha.last,List.map_append,List.map_singleton,ha.found,
    Option.map_some,ht]
  congr 1
  refine List.map_congr_left fun f hf' => ?_
  obtain ⟨st,hst⟩ := hs
  rw [out_of_some hst] at hf'
  obtain ⟨y,hy,-⟩ := (hf.listed hst).mp hf'
  rw [hy,hg.step hy]

/-- Where a search goes on, the trials have become the steps of the state, in their order, and all
states that were discovered on the way are finished with. -/
theorem Works.finished (h : Works rules config s q ts p o p') (hk : p.graph.Kept rules q₀)
    (hq : p.graph.Shows s q) (hmore : config.continues o = true) :
    p'.graph.trials s = p.graph.trials s ++ ts.map some ∧
    ∀ u, p'.graph.Live u → ¬p.graph.Live u → Finished rules p'.graph u := by
  induction h with
  | rest => exact ⟨(List.append_nil _).symm,fun u hu hnot => absurd hu hnot⟩
  | known listed led =>
    obtain ⟨-,he₁⟩ := attempt_continues listed _ _ _ hk hq led
    refine ⟨trials_of_attempt hk.faithful hq.live he₁.grows led,fun u hu hnot => ?_⟩
    cases ((live_of_attempt hq.live led u).mp hu).resolve_left hnot
  | capped => cases hmore
  | goal listed led room goal =>
    obtain ⟨-,he₁⟩ := attempt_continues listed _ _ _ hk hq led
    refine ⟨trials_of_attempt hk.faithful hq.live he₁.grows led,fun v hv hnot => ?_⟩
    cases ((live_of_attempt hq.live led v).mp hv).resolve_left hnot
    exact .inl goal
  | @new s u q t ts st o p p₁ p' listed led room state aimless below all ih =>
    obtain ⟨hk₁,he₁⟩ := attempt_continues listed _ _ _ hk hq led
    obtain ⟨-,he'⟩ := below.continues hk₁ ⟨_,state,rfl⟩
    obtain ⟨htrials,hnew⟩ := ih hk₁ ⟨_,state,rfl⟩ hmore
    have hu : ¬p.graph.Live u := (reduce_new_live led).1
    have hne : s ≠ u := fun h => hu (h ▸ hq.live)
    refine ⟨?_,fun v hv hnot => ?_⟩
    · rw [trials_extends hk₁.faithful he' (hq.live.grows he₁.grows) hne]
      exact trials_of_attempt hk.faithful hq.live he₁.grows led
    · by_cases hv₁ : p₁.graph.Live v
      · cases ((live_of_attempt hq.live led v).mp hv₁).resolve_left hnot
        -- The discovered state had no steps before its own trials.
        have hnone : p₁.graph.trials u = [] := by
          obtain ⟨e,x,-,-,⟨ht,-⟩|⟨ht,-,hout,-⟩⟩ := reduce_added hq.live led
          · cases ht
          · cases ht
            rw [SearchGraph.trials,hout]
            rfl
        rw [hnone,List.nil_append] at htrials
        obtain ⟨st',hst',hsq⟩ := he'.grows.state state
        exact .inr ⟨st',ts,hst',hsq ▸ all hmore,htrials⟩
      · exact hnew v hv hv₁
  | @append s q ts us o o' p p₁ p' first more second ih₁ ih₂ =>
    obtain ⟨hk₁,he₁⟩ := first.continues hk hq
    have hq₁ := hq.grows he₁.grows
    obtain ⟨-,he'⟩ := second.continues hk₁ hq₁
    obtain ⟨h₁,hnew₁⟩ := ih₁ hk hq more
    obtain ⟨h₂,hnew₂⟩ := ih₂ hk₁ hq₁ (continues_second more hmore)
    refine ⟨by rw [h₂,h₁,List.map_append,List.append_assoc],fun v hv hnot => ?_⟩
    by_cases hv₁ : p₁.graph.Live v
    · exact (hnew₁ v hv₁ hnot).extends hk₁.faithful he' hv₁ fun h => hnot (h ▸ hq.live)
    · exact hnew₂ v hv hv₁

end Search

end GraphPattern
