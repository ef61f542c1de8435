import GraphPattern.Proofs.Custody.Run
import GraphPattern.Proofs.Execution.Result
import GraphPattern.Proofs.Matches.Links

/-!
# Derived links

The links that a list of requests leads to are known from the container alone. They are added behind
the links that there were, so what one request adds is nothing to the next one, and when the work is
done the store has no table that it did not have before.
-/

namespace GraphPattern

open Step Matches

/-! ## Numbers behind the greatest one -/

namespace OrderedMap

variable {α : Type}

/-- An entry with a greater key stands behind all others. -/
theorem entries_insert_last {m : OrderedMap Int α} {k : Int} (a : α) (h : ∀ j ∈ m.keys, j < k) :
    (m.insert k a).entries = m.entries ++ [(k,a)] := by
  obtain ⟨es⟩ := m
  simp only [keys,insert] at h ⊢
  induction es with
  | nil => rfl
  | cons e es ih =>
    have he : e.1 < k := h e.1 List.mem_cons_self
    have hes := ih fun j hj => h j (List.mem_cons_of_mem _ hj)
    rw [insertEntry,if_neg (by omega),if_neg (by omega),hes,List.cons_append]

/-- No key is greater than the last one. -/
theorem le_lastKey {m : OrderedMap Int α} (h : m.keys.Pairwise (· < ·)) :
    ∀ j ∈ m.keys, j ≤ m.keys.getLastD 0 := by
  intro j hj
  have hne : m.keys ≠ [] := List.ne_nil_of_mem hj
  rw [← List.dropLast_concat_getLast hne,List.pairwise_append] at h
  rw [← List.dropLast_concat_getLast hne] at hj
  rw [List.getLastD_eq_getLast?,List.getLast?_eq_some_getLast hne]
  rcases List.mem_append.mp hj with hj|hj
  · exact le_of_lt (h.2.2 j hj _ List.mem_cons_self)
  · exact le_of_eq (List.mem_singleton.mp hj)

end OrderedMap

namespace Execution

open Workspace

variable {s : Store} {c : StoredContainer} {m : OrderedMap Int StoredLink} {container : String}
  {request : DerivedLink} {link : StoredLink}

/-- Links under the numbers that follow a number. -/
def numberedAfter (last : Int) : List StoredLink → List (Int × StoredLink)
  | [] => []
  | link :: links => (last + 1,link) :: numberedAfter (last + 1) links

theorem map_snd_numberedAfter (last : Int) (links : List StoredLink) :
    (numberedAfter last links).map Prod.snd = links := by
  induction links generalizing last with
  | nil => rfl
  | cons link links ih => rw [numberedAfter,List.map_cons,ih]

/-- The numbers go up from the one that they follow. -/
theorem pairwise_numberedAfter (last : Int) (links : List StoredLink) :
    (last :: (numberedAfter last links).map Prod.fst).Pairwise (· < ·) := by
  induction links generalizing last with
  | nil => exact List.pairwise_singleton _ _
  | cons link links ih =>
    have hrest := ih (last + 1)
    have hlast : last < last + 1 := by omega
    rw [numberedAfter,List.map_cons]
    refine List.pairwise_cons.mpr ⟨fun k hk => ?_,hrest⟩
    rcases List.mem_cons.mp hk with rfl|hk
    · exact hlast
    · exact hlast.trans ((List.pairwise_cons.mp hrest).1 k hk)

/-- What is added stands behind the links that there were. -/
theorem entries_addLinks (links : List StoredLink) (h : m.keys.Pairwise (· < ·)) :
    (addLinks m links).entries = m.entries ++ numberedAfter (m.keys.getLastD 0) links := by
  induction links generalizing m with
  | nil => exact (List.append_nil _).symm
  | cons link links ih =>
    have hbefore : ∀ j ∈ m.keys, j < m.keys.getLastD 0 + 1 := fun j hj => by
      have hle := OrderedMap.le_lastKey h j hj
      omega
    have hentries := OrderedMap.entries_insert_last link hbefore
    have hkeys : (m.insert (m.keys.getLastD 0 + 1) link).keys =
        m.keys ++ [m.keys.getLastD 0 + 1] := by
      rw [OrderedMap.keys,hentries,List.map_append]
      rfl
    have hordered : (m.insert (m.keys.getLastD 0 + 1) link).keys.Pairwise (· < ·) := by
      rw [hkeys]
      refine List.pairwise_append.mpr ⟨h,List.pairwise_singleton _ _,fun j hj k hk => ?_⟩
      rw [List.mem_singleton.mp hk]
      exact hbefore j hj
    have hrest := ih hordered
    rw [hkeys,hentries,List.getLastD_concat,List.append_assoc] at hrest
    exact hrest

/-! ## Pairs -/

/-- No link is asked for twice. -/
theorem nodup_requested (c : StoredContainer) (request : DerivedLink) :
    (requested c request).Nodup := by
  refine (Table.nodup_distinctRows _ _).filterMap fun row row' link hrow hrow' => ?_
  split at hrow
  · split at hrow'
    · cases hrow
      cases hrow'
      rfl
    · cases hrow'
  · cases hrow

/-- A link is asked for by the objects of the two items in one match. -/
theorem mem_requested (hr : ∀ row ∈ c.objects.rows, ∃ i g n, row = [.int i,.int g,n]) :
    link ∈ requested c request ↔ link.attributes = ⟨[(request.attr,.infer request.value)]⟩ ∧
      ∃ g, MatchRow.cells ⟨link.source,g,request.source⟩ ∈ c.objects.rows ∧
        MatchRow.cells ⟨link.target,g,request.target⟩ ∈ c.objects.rows := by
  -- The rows of one item.
  have hitem : ∀ {name : String} {row : List Value}, row ∈ ofItems [name] c.objects.rows ↔
      ∃ i g, MatchRow.cells ⟨i,g,name⟩ = row ∧ row ∈ c.objects.rows := by
    intro name row
    rw [ofItems,List.mem_filter]
    constructor
    · rintro ⟨hrow,hname⟩
      obtain ⟨i,g,n,rfl⟩ := hr row hrow
      refine ⟨i,g,?_,hrow⟩
      cases n with
      | string n =>
        have hn : n ∈ [name] := of_decide_eq_true hname
        rw [List.mem_singleton.mp hn]
        rfl
      | null | bool _ | int _ | float _ => cases hname
    · rintro ⟨i,g,rfl,hrow⟩
      exact ⟨hrow,decide_eq_true List.mem_cons_self⟩
  have hpair : ∀ {a b : Int}, [Value.int a,.int b] ∈ pairRows c request ↔
      ∃ g, MatchRow.cells ⟨a,g,request.source⟩ ∈ c.objects.rows ∧
        MatchRow.cells ⟨b,g,request.target⟩ ∈ c.objects.rows := by
    intro a b
    rw [pairRows,Table.mem_distinctRows]
    constructor
    · rintro ⟨p,hp,he⟩
      obtain ⟨x,hx,y,hy,hagree,rfl⟩ := Table.mem_joinRows.mp hp
      obtain ⟨i,g,rfl,hx⟩ := hitem.mp hx
      obtain ⟨j,g',rfl,hy⟩ := hitem.mp hy
      cases he
      cases (Table.agree_iff.mp hagree).2
      exact ⟨g,hx,hy⟩
    · rintro ⟨g,hx,hy⟩
      refine ⟨[.int a,.int b],Table.mem_joinRows.mpr ⟨_,hitem.mpr ⟨a,g,rfl,hx⟩,_,
        hitem.mpr ⟨b,g,rfl,hy⟩,Table.agree_iff.mpr ⟨fun i hi => ?_,rfl⟩,rfl⟩,rfl⟩
      cases List.mem_singleton.mp hi
      rfl
  rw [requested,List.mem_filterMap]
  constructor
  · rintro ⟨row,hrow,he⟩
    split at he
    · cases he
      exact ⟨rfl,hpair.mp hrow⟩
    · cases he
  · rintro ⟨ha,hg⟩
    obtain ⟨a,b,attributes⟩ := link
    cases ha
    exact ⟨_,hpair.mpr hg,rfl⟩

/-! ## All requests -/

/-- Every request adds one link for each pair of objects of its two items in one match, under numbers
of their own behind those that there were, and nothing else in the store changes. -/
theorem deriveAllLinks_exact (hs : s.Keyed) (ht : s.Counted) (hf : s.failsCommits = false)
    (hc : s.containers.find? container = some c) (hk : c.Kept)
    (hr : ∀ row ∈ c.objects.rows, ∃ i g n, row = [.int i,.int g,n]) (requests : List DerivedLink) :
    ∃ s' news, deriveAllLinks container requests (.fresh s) = .ok news.length (.fresh s') ∧
      s'.links.entries = s.links.entries ++ news ∧
      ((∀ j ∈ s.links.keys, ∀ e ∈ news, j < e.1) ∧ (news.map Prod.fst).Nodup) ∧
      news.map Prod.snd = requests.flatMap (requested c) ∧
      (∀ request, (requested c request).Nodup ∧ ∀ link, link ∈ requested c request ↔
        link.attributes = ⟨[(request.attr,.infer request.value)]⟩ ∧
          ∃ g, MatchRow.cells ⟨link.source,g,request.source⟩ ∈ c.objects.rows ∧
            MatchRow.cells ⟨link.target,g,request.target⟩ ∈ c.objects.rows) ∧
      s'.objects = s.objects ∧ s'.containers = s.containers ∧
      ∀ i, s'.tables.find? i = s.tables.find? i := by
  obtain ⟨n,⟨s',registry,scratch⟩,hok,hn,h⟩ :=
    (outcome_deriveAllLinks (w:=.fresh s) hk requests hc hf).ok
  have hnumbers := pairwise_numberedAfter (s.links.keys.getLastD 0) (requests.flatMap (requested c))
  have hlength := congrArg List.length
    (map_snd_numberedAfter (s.links.keys.getLastD 0) (requests.flatMap (requested c)))
  rw [List.length_map,← hn] at hlength
  obtain rfl : registry = .empty := h.registry
  obtain rfl : scratch = [] := h.scratch
  have hcustody := ((tends_deriveAllLinks container requests _ (custody_fresh ht)).of_eq hok).custody
  refine ⟨s',numberedAfter (s.links.keys.getLastD 0) (requests.flatMap (requested c)),
    by rw [hlength]; exact hok,?_,⟨fun j hj e he => ?_,?_⟩,map_snd_numberedAfter _ _,
    fun request => ⟨nodup_requested c request,fun link => mem_requested hr⟩,h.objects,h.containers,
    fun i => ?_⟩
  · rw [← entries_addLinks _ hs.links]
    exact congrArg OrderedMap.entries h.links
  · have hle := OrderedMap.le_lastKey hs.links j hj
    have hlt := (List.pairwise_cons.mp hnumbers).1 e.1 (List.mem_map_of_mem he)
    omega
  · exact (List.pairwise_cons.mp hnumbers).2.imp ne_of_lt
  · -- The tables are those that there were, and those have not changed.
    by_cases hi : s.Live i
    · exact h.tables (ht hi)
    · have hgone : ¬s'.Live i := fun hl => by
        rcases (hcustody.live i).mp hl with hl|ho|hm
        · exact hi hl
        · exact not_owns_empty ho
        · exact List.not_mem_nil hm
      rw [Store.Live,Bool.not_eq_true,Option.isSome_eq_false_iff,Option.isNone_iff_eq_none] at hi hgone
      rw [hi,hgone]

/-- A container with a pair that occurs in two matches, with two objects under one name, and with an
object under two names; the numbers of the links are not all positive. -/
def acquainted : Store where
  created := 3
  tables := ⟨[(⟨2⟩,⟨["a"],[[.int 1]]⟩)]⟩
  objects := ⟨[(1,.empty),(2,.empty),(3,.empty)]⟩
  links := ⟨[(-7,⟨2,1,.empty⟩),(-5,⟨1,2,.empty⟩)]⟩
  containers := ⟨[("c",⟨⟨Column.matched,[⟨1,1,"A"⟩,⟨2,1,"B"⟩,⟨3,1,"B"⟩,⟨1,2,"A"⟩,⟨2,2,"B"⟩,⟨3,4,"A"⟩,
    ⟨3,4,"B"⟩].map MatchRow.cells⟩,⟨Column.matched,[]⟩⟩)]⟩
  commits := 0
  failsCommits := false

/-- A pair gets one link for each request, however often it occurs, and an object may be linked to
itself. -/
theorem deriveAllLinks_exact_acquainted : ∃ s' news,
    deriveAllLinks "c" [⟨"A","B","kind","new"⟩,⟨"A","C","kind","new"⟩,⟨"A","A","level","3"⟩]
      (.fresh acquainted) = .ok 5 (.fresh s') ∧
    s'.links.entries = acquainted.links.entries ++ news ∧
    news.map Prod.snd = [⟨1,2,⟨[("kind",.string "new")]⟩⟩,⟨1,3,⟨[("kind",.string "new")]⟩⟩,
      ⟨3,3,⟨[("kind",.string "new")]⟩⟩,⟨1,1,⟨[("level",.int 3)]⟩⟩,⟨3,3,⟨[("level",.int 3)]⟩⟩] ∧
    s'.tables.find? ⟨2⟩ = some ⟨["a"],[[.int 1]]⟩ ∧ s'.tables.find? ⟨4⟩ = none := by
  have hs : acquainted.Keyed := ⟨by decide,by decide⟩
  have ht : acquainted.Counted := fun {i} hi => by
    obtain ⟨t,ht⟩ := Option.isSome_iff_exists.mp hi
    cases List.mem_singleton.mp (OrderedMap.mem_of_find? ht)
    decide
  obtain ⟨c,hc⟩ : ∃ c, acquainted.containers.find? "c" = some c := ⟨_,rfl⟩
  have hr : ∀ row ∈ c.objects.rows, ∃ i g n, row = [.int i,.int g,n] := fun row hrow => by
    cases hc
    obtain ⟨r,-,rfl⟩ := List.mem_map.mp hrow
    exact ⟨r.item,r.subgraph,_,rfl⟩
  have hk : c.Kept := by
    refine ⟨?_,?_,fun row hrow => ?_⟩
    · cases hc
      rfl
    · cases hc
      rfl
    · obtain ⟨i,g,n,rfl⟩ := hr row hrow
      exact ⟨i,rfl⟩
  obtain ⟨s',news,hok,hlinks,-,hnews,-,-,-,htables⟩ := deriveAllLinks_exact hs ht rfl hc hk hr
    [⟨"A","B","kind","new"⟩,⟨"A","C","kind","new"⟩,⟨"A","A","level","3"⟩]
  cases hc
  have hasked : news.map Prod.snd = [⟨1,2,⟨[("kind",.string "new")]⟩⟩,
      ⟨1,3,⟨[("kind",.string "new")]⟩⟩,⟨3,3,⟨[("kind",.string "new")]⟩⟩,⟨1,1,⟨[("level",.int 3)]⟩⟩,
      ⟨3,3,⟨[("level",.int 3)]⟩⟩] := hnews.trans (by decide +kernel)
  have hlength : news.length = 5 := by
    rw [← List.length_map (f:=Prod.snd),hasked]
    rfl
  exact ⟨s',news,hlength ▸ hok,hlinks,hasked,htables _,htables _⟩

end Execution

end GraphPattern
