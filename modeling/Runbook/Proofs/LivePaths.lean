import Mathlib.Data.List.Lex
import Mathlib.Data.List.Nodup
import Runbook.Proofs.PathTree

/-!
The steps of a script are the simple live paths of its graph. A path is given by the places of its
edges, so that parallel edges make different paths. The live edges out of a node, in the order in
which the walk takes them, are told apart from the walk: by the first edge on each port and by the
order of ports and places. The steps then list exactly the paths that come by no node twice, each
path once and ahead of all that go on from it.
-/
namespace Runbook

/-- What a step tells of the path to it: its node, the one before it, and how deep it is. -/
def ScriptStep.outline (s : ScriptStep) : NodeId × List NodeId × Nat :=
  (s.node, s.dependsOn, s.depth)

abbrev PlacedEdge := Edge × Nat

def Port.rank : Port → Nat
  | whenTrue | body | success => 0
  | whenFalse | exit | failure => 1

namespace PlacedEdge

/-- The order of the edges out of one node. Ports decide it where there are any. -/
def Precedes (a b : PlacedEdge) : Prop :=
  match a.1.port, b.1.port with
  | some p, some q => p.rank < q.rank
  | _, _ => a.2 < b.2

theorem not_precedes_self (a : PlacedEdge) : ¬ a.Precedes a := by
  unfold Precedes
  cases a.1.port <;> simp

def nests (a : PlacedEdge) : Bool := a.1.port.any (· ≠ .exit)

def LeadFrom (id : NodeId) : List PlacedEdge → Prop
  | [] => True
  | a :: rest => a.1.source = id ∧ LeadFrom a.1.target rest

def outline (start : NodeId) (depth : Nat) (path : List PlacedEdge) :
    NodeId × List NodeId × Nat :=
  let stops := path.map fun a => a.1.target
  (stops.getLastD start, (start :: stops).dropLast.getLast?.toList, depth + path.countP nests)

theorem outline_cons (start : NodeId) (depth : Nat) (a : PlacedEdge) (path : List PlacedEdge)
    (hpath : path ≠ []) :
    outline start depth (a :: path) =
      outline a.1.target (if a.nests then depth + 1 else depth) path := by
  obtain ⟨b, rest, rfl⟩ := List.exists_cons_of_ne_nil hpath
  simp only [outline, List.map_cons, List.getLastD_cons, List.dropLast_cons_cons,
    List.getLast?_cons_cons, List.countP_cons, Prod.mk.injEq, true_and]
  by_cases ha : a.nests = true
  · simp only [ha, if_true]
    omega
  · simp only [ha, Bool.false_eq_true, if_false]
    omega

end PlacedEdge

open PlacedEdge

namespace Graph

/-- No edge at an earlier place leaves the same node through the same port. -/
def IsFirstOnPort (g : Graph) (a : PlacedEdge) : Prop :=
  ∀ b ∈ g.edges.zipIdx, b.1.source = a.1.source → b.1.port = a.1.port → a.2 ≤ b.2

/-- Paths follow an edge if its source does not branch or if it is the first on its port. -/
def IsLive (g : Graph) (a : PlacedEdge) : Prop :=
  a ∈ g.edges.zipIdx ∧
    ((∃ node ∈ g.nodes, node.id = a.1.source ∧ node.kind.isBranching = false) ∨
      g.IsFirstOnPort a)

/-- A path of live edges from a node that comes by no node twice. -/
structure IsSimpleLivePath (g : Graph) (start : NodeId) (path : List PlacedEdge) : Prop where
  leads : LeadFrom start path
  live : ∀ a ∈ path, g.IsLive a
  simple : (start :: path.map fun a => a.1.target).Nodup

/-- All simple live paths from a node, each once and ahead of those that go on from it. -/
structure EnumeratesPaths (g : Graph) (start : NodeId) (paths : List (List PlacedEdge)) :
    Prop where
  mem_iff : ∀ p, p ∈ paths ↔ g.IsSimpleLivePath start p
  nodup : paths.Nodup
  sorted : paths.Pairwise (List.Lex Precedes)

/-- A path of live edges that goes on from the last node of another without coming by a node of
either twice. -/
def GoesOn (g : Graph) (seen : List NodeId) (last : NodeId) : List PlacedEdge → Prop
  | [] => True
  | a :: rest =>
    g.IsLive a ∧ a.1.source = last ∧ a.1.target ∉ seen ∧
      g.GoesOn (a.1.target :: seen) a.1.target rest

theorem goesOn_iff (g : Graph) (seen : List NodeId) (last : NodeId) (path : List PlacedEdge) :
    g.GoesOn seen last path ↔ LeadFrom last path ∧ (∀ a ∈ path, g.IsLive a) ∧
      (path.map fun a => a.1.target).Nodup ∧ ∀ a ∈ path, a.1.target ∉ seen := by
  induction path generalizing seen last with
  | nil => simp [GoesOn, LeadFrom]
  | cons a rest ih =>
    simp only [GoesOn, LeadFrom, ih, List.mem_cons, List.map_cons, List.nodup_cons,
      List.mem_map, not_or, forall_eq_or_imp]
    constructor
    · intro hgoes
      obtain ⟨hlive, hsource, hfresh, hleads, hrest, hnodup, hapart⟩ := hgoes
      refine ⟨⟨hsource, hleads⟩, ⟨hlive, hrest⟩, ⟨?_, hnodup⟩, hfresh,
        fun b hb => (hapart b hb).2⟩
      intro hmem
      obtain ⟨b, hb, heq⟩ := hmem
      exact (hapart b hb).1 heq
    · intro hall
      obtain ⟨⟨hsource, hleads⟩, ⟨hlive, hrest⟩, ⟨hapart, hnodup⟩, hfresh, hseen⟩ := hall
      exact ⟨hlive, hsource, hfresh, hleads, hrest, hnodup,
        fun b hb => ⟨fun heq => hapart ⟨b, hb, heq⟩, hseen b hb⟩⟩

theorem isSimpleLivePath_iff (g : Graph) (start : NodeId) (path : List PlacedEdge) :
    g.IsSimpleLivePath start path ↔ g.GoesOn [start] start path := by
  rw [goesOn_iff]
  have hstart : (∀ a ∈ path, a.1.target ∉ [start]) ↔
      start ∉ path.map fun a => a.1.target := by
    simp only [List.mem_singleton, List.mem_map, not_exists, not_and]
  rw [hstart]
  constructor
  · intro hpath
    obtain ⟨hleads, hlive, hsimple⟩ := hpath
    obtain ⟨hfresh, hnodup⟩ := List.nodup_cons.mp hsimple
    exact ⟨hleads, hlive, hnodup, hfresh⟩
  · intro hgoes
    obtain ⟨hleads, hlive, hnodup, hfresh⟩ := hgoes
    exact ⟨hleads, hlive, List.nodup_cons.mpr ⟨hfresh, hnodup⟩⟩

end Graph

/-- In a list in the order of places the first element found has the least place. -/
theorem find?_eq_some_iff_least {α : Type} {l : List (α × Nat)} {p : α × Nat → Bool}
    {a : α × Nat} (hl : l.Pairwise fun a b => a.2 < b.2) :
    l.find? p = some a ↔ a ∈ l ∧ p a = true ∧ ∀ b ∈ l, p b = true → a.2 ≤ b.2 := by
  induction l with
  | nil => simp
  | cons x rest ih =>
    obtain ⟨hx, hrest⟩ := List.pairwise_cons.mp hl
    by_cases hp : p x = true
    · rw [List.find?_cons_of_pos hp, Option.some.injEq]
      constructor
      · rintro rfl
        refine ⟨List.mem_cons_self, hp, fun b hb _ => ?_⟩
        rcases List.mem_cons.mp hb with rfl | hb
        · exact Nat.le_refl _
        · exact Nat.le_of_lt (hx b hb)
      · intro hfirst
        obtain ⟨ha, _, hleast⟩ := hfirst
        rcases List.mem_cons.mp ha with rfl | ha
        · rfl
        · have hle := hleast x List.mem_cons_self hp
          have hlt := hx a ha
          omega
    · rw [List.find?_cons_of_neg hp, ih hrest]
      constructor
      · intro hfirst
        obtain ⟨ha, hpa, hleast⟩ := hfirst
        refine ⟨List.mem_cons_of_mem _ ha, hpa, fun b hb hpb => ?_⟩
        rcases List.mem_cons.mp hb with rfl | hb
        · exact absurd hpb hp
        · exact hleast b hb hpb
      · intro hfirst
        obtain ⟨ha, hpa, hleast⟩ := hfirst
        rcases List.mem_cons.mp ha with rfl | ha
        · exact absurd hpa hp
        · exact ⟨ha, hpa, fun b hb => hleast b (List.mem_cons_of_mem _ hb)⟩

theorem pairwise_place_lt {α : Type} (l : List α) :
    l.zipIdx.Pairwise fun a b => a.2 < b.2 := by
  have hplaces : (l.zipIdx.map Prod.snd).Pairwise (· < ·) := by
    rw [List.zipIdx_map_snd]
    exact List.pairwise_lt_range' 1
  exact List.pairwise_map.mp hplaces

namespace Graph

variable {g : Graph}

/-- The live edges out of a node that does not branch are all its edges in the order of places. -/
theorem exists_placed_of_not_branching (hfree : g.IsErrorFree)
    (hids : (g.nodes.map Node.id).Nodup) {last : Node} (hlast : last ∈ g.nodes)
    (hplain : last.kind.isBranching = false) :
    ∃ placed : List PlacedEdge, placed.map Prod.fst = g.liveEdges last ∧
      placed.Pairwise Precedes ∧ ∀ a, a ∈ placed ↔ g.IsLive a ∧ a.1.source = last.id := by
  refine ⟨g.edges.zipIdx.filter fun a => a.1.source = last.id, ?_, ?_, fun a => ?_⟩
  · have hmap := List.filter_map (l := g.edges.zipIdx) (f := Prod.fst)
      (p := fun e => decide (e.source = last.id))
    rw [List.zipIdx_map_fst] at hmap
    simp only [liveEdges, hplain, Bool.false_eq_true, if_false, outgoing, hmap]
    rfl
  · have hnone : ∀ a ∈ g.edges.zipIdx.filter (fun a => a.1.source = last.id),
        a.1.port = none := by
      intro a ha
      obtain ⟨ha, hsource⟩ := List.mem_filter.mp ha
      have hport := hfree.accepts_port_of_source hids hlast (List.fst_mem_of_mem_zipIdx ha)
        (by simpa using hsource)
      cases hname : a.1.port with
      | none => rfl
      | some port =>
        rw [hname] at hport
        simp_all [Kind.accepts, Kind.isBranching]
    refine List.Pairwise.imp_of_mem ?_ ((pairwise_place_lt g.edges).filter _)
    intro a b ha hb hlt
    simpa only [Precedes, hnone a ha] using hlt
  · simp only [List.mem_filter, decide_eq_true_eq]
    constructor
    · intro hout
      obtain ⟨ha, hsource⟩ := hout
      exact ⟨⟨ha, .inl ⟨last, hlast, hsource.symm, hplain⟩⟩, hsource⟩
    · intro hout
      obtain ⟨⟨ha, _⟩, hsource⟩ := hout
      exact ⟨ha, hsource⟩

/-- The live edges out of a branching node are the first ones on its ports in their order. -/
theorem exists_placed_of_branching (hfree : g.IsErrorFree)
    (hids : (g.nodes.map Node.id).Nodup) {last : Node} (hlast : last ∈ g.nodes)
    (hbranching : last.kind.isBranching = true) :
    ∃ placed : List PlacedEdge, placed.map Prod.fst = g.liveEdges last ∧
      placed.Pairwise Precedes ∧ ∀ a, a ∈ placed ↔ g.IsLive a ∧ a.1.source = last.id := by
  have hfirst : ∀ (port : Port) (a : PlacedEdge),
      g.edges.zipIdx.find? (fun a => a.1.source = last.id ∧ a.1.port = some port) = some a ↔
        a ∈ g.edges.zipIdx ∧ (a.1.source = last.id ∧ a.1.port = some port) ∧
          g.IsFirstOnPort a := by
    intro port a
    rw [find?_eq_some_iff_least (pairwise_place_lt g.edges)]
    simp only [decide_eq_true_eq, IsFirstOnPort]
    constructor
    · intro hfound
      obtain ⟨ha, ⟨hsource, hport⟩, hleast⟩ := hfound
      exact ⟨ha, ⟨hsource, hport⟩, fun b hb hs hp => hleast b hb ⟨hs.trans hsource, hp.trans hport⟩⟩
    · intro hfound
      obtain ⟨ha, ⟨hsource, hport⟩, hleast⟩ := hfound
      exact ⟨ha, ⟨hsource, hport⟩, fun b hb hs =>
        hleast b hb (hs.1.trans hsource.symm) (hs.2.trans hport.symm)⟩
  refine ⟨last.kind.ports.filterMap fun port =>
    g.edges.zipIdx.find? fun a => a.1.source = last.id ∧ a.1.port = some port, ?_, ?_,
    fun a => ?_⟩
  · simp only [liveEdges, hbranching, if_true, outgoing, List.map_filterMap, List.find?_filter]
    refine List.filterMap_congr fun port _ => ?_
    have hmap := List.find?_map (l := g.edges.zipIdx) (f := Prod.fst)
      (p := fun e => decide (e.source = last.id ∧ e.port = some port))
    rw [List.zipIdx_map_fst] at hmap
    simp only [decide_eq_true_eq, hmap]
    rfl
  · rw [List.pairwise_filterMap]
    have hports : last.kind.ports.Pairwise fun p q => p.rank < q.rank := by
      cases last.kind <;> decide
    refine hports.imp fun {p q} hpq a ha b hb => ?_
    obtain ⟨-, ⟨-, hp⟩, -⟩ := (hfirst p a).mp ha
    obtain ⟨-, ⟨-, hq⟩, -⟩ := (hfirst q b).mp hb
    simpa only [Precedes, hp, hq] using hpq
  · simp only [List.mem_filterMap, hfirst]
    constructor
    · intro hfound
      obtain ⟨port, -, ha, ⟨hsource, -⟩, hleast⟩ := hfound
      exact ⟨⟨ha, .inr hleast⟩, hsource⟩
    · intro hout
      obtain ⟨⟨ha, hlive⟩, hsource⟩ := hout
      have hport := hfree.accepts_port_of_source hids hlast (List.fst_mem_of_mem_zipIdx ha)
        hsource
      rcases hlive with ⟨node, hnode, hid, hplain⟩ | hleast
      · have heq : node = last :=
          List.inj_on_of_nodup_map hids hnode hlast (hid.trans hsource)
        rw [heq, hbranching] at hplain
        exact Bool.noConfusion hplain
      · cases hname : a.1.port with
        | none =>
          rw [hname] at hport
          simp [Kind.accepts, hbranching] at hport
        | some port =>
          rw [hname] at hport
          exact ⟨port, by simpa [Kind.accepts] using hport, ha, ⟨hsource, rfl⟩, hleast⟩

/-- The edges that the walk takes out of a node are the live ones, in their order. -/
theorem exists_placed_liveEdges (hfree : g.IsErrorFree) (hids : (g.nodes.map Node.id).Nodup)
    {last : Node} (hlast : last ∈ g.nodes) :
    ∃ placed : List PlacedEdge, placed.map Prod.fst = g.liveEdges last ∧
      placed.Pairwise Precedes ∧ ∀ a, a ∈ placed ↔ g.IsLive a ∧ a.1.source = last.id := by
  cases hkind : last.kind.isBranching with
  | false => exact exists_placed_of_not_branching hfree hids hlast hkind
  | true => exact exists_placed_of_branching hfree hids hlast hkind

/-- A step is nested under the one before it exactly if the edge between them says so. -/
theorem depthBehind_eq (hfree : g.IsErrorFree) (hids : (g.nodes.map Node.id).Nodup)
    {last : Node} (hlast : last ∈ g.nodes) {a : PlacedEdge} (ha : g.IsLive a)
    (hsource : a.1.source = last.id) (depth : Nat) :
    depthBehind depth last a.1 = if a.nests then depth + 1 else depth := by
  have hport := hfree.accepts_port_of_source hids hlast (List.fst_mem_of_mem_zipIdx ha.1) hsource
  unfold depthBehind Node.opensArm nests
  cases hname : a.1.port with
  | none => simp
  | some port =>
    rw [hname] at hport
    have hmem : port ∈ last.kind.ports := by simpa [Kind.accepts] using hport
    have hbranching : last.kind.isBranching = true := by
      cases hports : last.kind.ports with
      | nil => simp [hports] at hmem
      | cons p rest => simp [Kind.isBranching, hports]
    cases port <;> simp [hbranching, Port.opensArm]

structure Lists (g : Graph) (seen : List NodeId) (last : NodeId) (placed : List PlacedEdge)
    (paths : List (List PlacedEdge)) : Prop where
  sorted : paths.Pairwise (List.Lex Precedes)
  mem_iff : ∀ p, p ∈ paths ↔ ∃ a rest, p = a :: rest ∧ a ∈ placed ∧ g.GoesOn seen last p

namespace Lists

variable {seen : List NodeId} {last : NodeId} {a : PlacedEdge} {placed : List PlacedEdge}
  {paths : List (List PlacedEdge)}

theorem nil (g : Graph) (seen : List NodeId) (last : NodeId) : g.Lists seen last [] [] where
  sorted := .nil
  mem_iff := by simp

theorem ne_nil (h : g.Lists seen last placed paths) {p : List PlacedEdge} (hp : p ∈ paths) :
    p ≠ [] := by
  obtain ⟨b, rest, rfl, -⟩ := (h.mem_iff p).mp hp
  exact List.cons_ne_nil b rest

/-- No path goes on to a node that is on it. -/
theorem skip (h : g.Lists seen last placed paths) (hseen : a.1.target ∈ seen) :
    g.Lists seen last (a :: placed) paths where
  sorted := h.sorted
  mem_iff p := by
    rw [h.mem_iff]
    constructor
    · intro hp
      obtain ⟨b, rest, rfl, hb, hgoes⟩ := hp
      exact ⟨b, rest, rfl, List.mem_cons_of_mem _ hb, hgoes⟩
    · intro hp
      obtain ⟨b, rest, rfl, hb, hgoes⟩ := hp
      rcases List.mem_cons.mp hb with rfl | hb
      · exact absurd hseen hgoes.2.2.1
      · exact ⟨b, rest, rfl, hb, hgoes⟩

/-- The path along one edge comes first, then what goes on from it, then the paths along the other
edges. -/
theorem cons {next : List PlacedEdge} {inner : List (List PlacedEdge)}
    (h : g.Lists seen last placed paths) (hlive : g.IsLive a) (hsource : a.1.source = last)
    (hfresh : a.1.target ∉ seen) (hfirst : ∀ b ∈ placed, a.Precedes b)
    (hinner : g.Lists (a.1.target :: seen) a.1.target next inner)
    (hnext : ∀ b, b ∈ next ↔ g.IsLive b ∧ b.1.source = a.1.target) :
    g.Lists seen last (a :: placed) ([a] :: inner.map (a :: ·) ++ paths) where
  sorted := by
    refine List.pairwise_append.mpr ⟨List.pairwise_cons.mpr ⟨?_, ?_⟩, h.sorted, ?_⟩
    · intro p hp
      obtain ⟨q, hq, rfl⟩ := List.mem_map.mp hp
      obtain ⟨b, rest, rfl⟩ := List.exists_cons_of_ne_nil (hinner.ne_nil hq)
      exact .cons .nil
    · exact List.pairwise_map.mpr (hinner.sorted.imp fun hlt => .cons hlt)
    · intro p hp q hq
      obtain ⟨b, rest, rfl, hb, -⟩ := (h.mem_iff q).mp hq
      have hhead : ∃ tail, p = a :: tail := by
        rcases List.mem_cons.mp hp with rfl | hp
        · exact ⟨[], rfl⟩
        · obtain ⟨tail, -, rfl⟩ := List.mem_map.mp hp
          exact ⟨tail, rfl⟩
      obtain ⟨tail, rfl⟩ := hhead
      exact .rel (hfirst b hb)
  mem_iff p := by
    simp only [List.cons_append, List.mem_cons, List.mem_append, List.mem_map, hinner.mem_iff,
      h.mem_iff]
    constructor
    · intro hp
      rcases hp with rfl | ⟨q, ⟨b, rest, rfl, -, hgoes⟩, rfl⟩ | ⟨b, rest, rfl, hb, hgoes⟩
      · exact ⟨a, [], rfl, .inl rfl, hlive, hsource, hfresh, trivial⟩
      · exact ⟨a, b :: rest, rfl, .inl rfl, hlive, hsource, hfresh, hgoes⟩
      · exact ⟨b, rest, rfl, .inr hb, hgoes⟩
    · intro hp
      rcases hp with ⟨b, rest, rfl, rfl | hb, hgoes⟩
      · cases rest with
        | nil => exact .inl rfl
        | cons d rest =>
          obtain ⟨-, -, -, hgoes⟩ := hgoes
          have hd : d ∈ next := (hnext d).mpr ⟨hgoes.1, hgoes.2.1⟩
          exact .inr (.inl ⟨d :: rest, ⟨d, rest, rfl, hd, hgoes⟩, rfl⟩)
      · exact .inr (.inr ⟨b, rest, rfl, hb, hgoes⟩)

/-- With the path that stays at the start in front, these are all simple live paths. -/
theorem enumeratesPaths (h : g.Lists [last] last placed paths)
    (hlive : ∀ b, b ∈ placed ↔ g.IsLive b ∧ b.1.source = last) :
    g.EnumeratesPaths last ([] :: paths) := by
  have hsorted : ([] :: paths).Pairwise (List.Lex Precedes) := by
    refine List.pairwise_cons.mpr ⟨fun p hp => ?_, h.sorted⟩
    obtain ⟨b, rest, rfl⟩ := List.exists_cons_of_ne_nil (h.ne_nil hp)
    exact .nil
  refine ⟨fun p => ?_, ?_, hsorted⟩
  · rw [isSimpleLivePath_iff, List.mem_cons, h.mem_iff]
    cases p with
    | nil => simp [GoesOn]
    | cons b rest =>
      constructor
      · intro hmem
        rcases hmem with hnil | ⟨_, _, _, _, hgoes⟩
        · cases hnil
        · exact hgoes
      · intro hgoes
        exact .inr ⟨b, rest, rfl, (hlive b).mpr ⟨hgoes.1, hgoes.2.1⟩, hgoes⟩
  · refine hsorted.imp fun {p q} hlt => List.Lex.to_ne (List.Lex.imp ?_ p q hlt)
    rintro b d hbd rfl
    exact not_precedes_self b hbd

end Lists

/-- The steps behind some edges outline the paths that go on along these edges. -/
theorem exists_paths_of_unfolds (hfree : g.IsErrorFree) (hids : (g.nodes.map Node.id).Nodup)
    (own : Node → String) (indent : String) {path loops : List NodeId} {last : Node}
    {edges : List Edge} {exits : Exits} (h : g.Unfolds path loops last edges exits)
    (hlast : last ∈ g.nodes) (placed : List PlacedEdge) (hedges : placed.map Prod.fst = edges)
    (hsorted : placed.Pairwise Precedes)
    (hlive : ∀ a ∈ placed, g.IsLive a ∧ a.1.source = last.id) (depth : Nat) :
    ∃ paths, g.Lists path last.id placed paths ∧
      ((exits.steps own indent last depth).flatMap Prod.snd).map ScriptStep.outline =
        paths.map (outline last.id depth) := by
  induction h generalizing placed depth with
  | nil =>
    obtain rfl : placed = [] := by simpa using hedges
    exact ⟨[], .nil g _ _, by simp [Exits.steps]⟩
  | @stopped path loops last e rest others hseen hrest ih =>
    obtain ⟨a, more, rfl, rfl, hmore⟩ := List.map_eq_cons_iff.mp hedges
    obtain ⟨paths, hlists, hsteps⟩ := ih hlast more hmore (List.pairwise_cons.mp hsorted).2
      (fun b hb => hlive b (List.mem_cons_of_mem _ hb)) depth
    exact ⟨paths, hlists.skip hseen, by simpa [Exits.steps] using hsteps⟩
  | @nowhere path loops last e rest others hfresh hnode hrest ih =>
    obtain ⟨a, more, rfl, rfl, hmore⟩ := List.map_eq_cons_iff.mp hedges
    have ha := (hlive a List.mem_cons_self).1.1
    obtain ⟨node, hsome⟩ := hfree.exists_target (List.fst_mem_of_mem_zipIdx ha)
    rw [hnode] at hsome
    cases hsome
  | @onward path loops last e rest node behind others hfresh hnode hbehind hrest ihbehind
      ihrest =>
    obtain ⟨a, more, rfl, rfl, hmore⟩ := List.map_eq_cons_iff.mp hedges
    obtain ⟨hfirst, hsorted⟩ := List.pairwise_cons.mp hsorted
    obtain ⟨ha, hsource⟩ := hlive a List.mem_cons_self
    have hid : node.id = a.1.target := id_of_node? hnode
    have hdepth := depthBehind_eq hfree hids hlast ha hsource depth
    obtain ⟨next, hnext, hnextsorted, hnextlive⟩ :=
      exists_placed_liveEdges hfree hids (mem_nodes_of_node? hnode)
    obtain ⟨inner, hinner, hinnersteps⟩ := ihbehind (mem_nodes_of_node? hnode) next hnext
      hnextsorted (fun b hb => (hnextlive b).mp hb) (depthBehind depth last a.1)
    obtain ⟨outer, houter, houtersteps⟩ := ihrest hlast more hmore hsorted
      (fun b hb => hlive b (List.mem_cons_of_mem _ hb)) depth
    rw [hid] at hinner hnextlive
    refine ⟨_, houter.cons ha hsource hfresh hfirst hinner hnextlive, ?_⟩
    have hhead : (node.id, [last.id], depthBehind depth last a.1) =
        outline last.id depth [a] := by
      rw [hid, hdepth]
      by_cases hnests : nests a = true <;> simp [outline, hnests]
    have htail : ∀ p ∈ inner,
        outline node.id (depthBehind depth last a.1) p = outline last.id depth (a :: p) := by
      intro p hp
      rw [outline_cons _ _ _ _ (hinner.ne_nil hp), hdepth, hid]
    simp only [Exits.steps, Visit.steps, List.flatMap_cons, List.map_append, List.map_cons,
      List.cons_append, hinnersteps, houtersteps, List.map_map, List.cons.injEq]
    exact ⟨hhead, congrArg (· ++ _) (List.map_congr_left htail)⟩

end Graph

/-- The steps of a script are the simple live paths from the start in the order of the walk. Each
path has one step, which tells its last node, the node before that, and how many of its edges
nest. -/
theorem Compiler.steps_enumerate_simple_live_paths {c : Compiler} {g : Graph}
    {resolver : Resolver} {script : Script} (hids : (g.nodes.map Node.id).Nodup)
    (h : c.compile g resolver = .ok script) :
    ∃ start paths, g.ofKind .start = [start] ∧ g.EnumeratesPaths start.id paths ∧
      script.steps.map ScriptStep.outline = paths.map (outline start.id 0) := by
  obtain ⟨hfree, start, exits, hstart, htree, rfl⟩ := exists_tree_of_compile h
  have hmem : start ∈ g.nodes := Graph.mem_nodes_of_ofKind hstart
  obtain ⟨placed, hplaced, hsorted, hlive⟩ := Graph.exists_placed_liveEdges hfree hids hmem
  obtain ⟨paths, hlists, hsteps⟩ := Graph.exists_paths_of_unfolds hfree hids
    (Node.ownText c.table resolver c.options.redactSecrets) c.options.indent htree hmem placed
    hplaced hsorted (fun a ha => (hlive a).mp ha) 0
  refine ⟨start, [] :: paths, hstart, hlists.enumeratesPaths hlive, ?_⟩
  simpa [scriptOf, Script.ofWalk, Visit.steps, ScriptStep.outline, outline] using hsteps

theorem Compiler.steps_enumerate_simple_live_paths_patrol : ∃ bytes script,
    (⟨.standard, { maxBytes := bytes }⟩ : Compiler).compile .patrol ({} : Inventory).resolver =
      .ok script ∧
    (Graph.patrol.nodes.map Node.id).Nodup ∧
    ∃ start paths, Graph.patrol.ofKind .start = [start] ∧
      Graph.patrol.EnumeratesPaths start.id paths ∧
      script.steps.map ScriptStep.outline = paths.map (outline start.id 0) := by
  obtain ⟨bytes, script, h⟩ := exists_compile_patrol .standard false ({} : Inventory).resolver
  exact ⟨bytes, script, h, Graph.patrol_ids_nodup,
    steps_enumerate_simple_live_paths Graph.patrol_ids_nodup h⟩

end Runbook
