import Runbook.Compiler.Visit

/-!
The shape of path trees. Limits and counters decide whether there is a tree of paths at all, but
have no say in its shape: at every exit the tree goes on exactly if the edge leads to a node that
is not on the path. Whatever holds of all trees is proved by induction on this shape.
-/
namespace Runbook

theorem bind_eq_ok {ε α β : Type} {x : Except ε α} {f : α → Except ε β} {b : β}
    (h : x >>= f = .ok b) : ∃ a, x = .ok a ∧ f a = .ok b := by
  cases x with
  | error e => cases h
  | ok a => exact ⟨a, rfl, h⟩

namespace Graph

/-- The tree behind some edges out of the last node of a path. The path and the loops around its
end hold their ids in reverse. -/
inductive Unfolds (g : Graph) : List NodeId → List NodeId → Node → List Edge → Exits → Prop
  | nil {path loops : List NodeId} {last : Node} : Unfolds g path loops last [] .nil
  | stopped {path loops : List NodeId} {last : Node} {e : Edge} {rest : List Edge}
      {others : Exits} (hseen : e.target ∈ path) (hrest : Unfolds g path loops last rest others) :
      Unfolds g path loops last (e :: rest)
        (.stopped e (stopBefore (loopsBehind loops last e) e.target) others)
  | nowhere {path loops : List NodeId} {last : Node} {e : Edge} {rest : List Edge}
      {others : Exits} (hfresh : e.target ∉ path) (hnode : g.node? e.target = none)
      (hrest : Unfolds g path loops last rest others) :
      Unfolds g path loops last (e :: rest) (.stopped e .nowhere others)
  | onward {path loops : List NodeId} {last : Node} {e : Edge} {rest : List Edge}
      {node : Node} {behind others : Exits} (hfresh : e.target ∉ path)
      (hnode : g.node? e.target = some node)
      (hbehind : Unfolds g (node.id :: path) (loopsBehind loops last e) node (g.liveEdges node)
        behind)
      (hrest : Unfolds g path loops last rest others) :
      Unfolds g path loops last (e :: rest) (.onward e (.mk node behind) others)

/-- Limits and counters have no say in the shape of a finished tree. -/
theorem unfolds_of_exits (g : Graph) (limits : Limits) (path loops : List NodeId) (depth : Nat)
    (last : Node) (edges : List Edge) (count : Nat) {exits : Exits} {visits : Nat}
    (h : g.exits limits path loops depth last edges count = .ok (exits, visits)) :
    g.Unfolds path loops last edges exits := by
  induction path, loops, depth, last, edges, count using Graph.exits.induct g
    generalizing exits visits with
  | case1 path loops depth last count =>
    rw [Graph.exits] at h
    obtain ⟨rfl, -⟩ := Prod.mk.inj (Except.ok.inj h)
    exact .nil
  | case2 path loops depth last count e rest ihrest ihbehind ihothers =>
    rw [Graph.exits] at h
    obtain ⟨-, -, h⟩ := bind_eq_ok h
    by_cases hseen : e.target ∈ path
    · simp only [hseen, dite_true] at h
      obtain ⟨⟨others, n⟩, hothers, h⟩ := bind_eq_ok h
      obtain ⟨rfl, -⟩ := Prod.mk.inj (Except.ok.inj h)
      exact .stopped hseen (ihrest hothers)
    · simp only [hseen, dite_false] at h
      split at h
      · rename_i hnode
        obtain ⟨⟨others, n⟩, hothers, h⟩ := bind_eq_ok h
        obtain ⟨rfl, -⟩ := Prod.mk.inj (Except.ok.inj h)
        exact .nowhere hseen hnode (ihrest hothers)
      · rename_i node hnode
        obtain ⟨-, -, h⟩ := bind_eq_ok h
        obtain ⟨⟨behind, m⟩, hbehind, h⟩ := bind_eq_ok h
        obtain ⟨⟨others, n⟩, hothers, h⟩ := bind_eq_ok h
        obtain ⟨rfl, -⟩ := Prod.mk.inj (Except.ok.inj h)
        exact .onward hseen hnode (ihbehind hseen node hnode hbehind) (ihothers m hothers)

theorem exists_unfolds_of_visit {g : Graph} {limits : Limits} {start : Node} {visit : Visit}
    (h : g.visit limits start = .ok visit) :
    ∃ exits, g.Unfolds [start.id] [] start (g.liveEdges start) exits ∧
      visit = .mk start exits := by
  unfold Graph.visit at h
  obtain ⟨-, -, h⟩ := bind_eq_ok h
  obtain ⟨⟨exits, n⟩, hexits, h⟩ := bind_eq_ok h
  exact ⟨exits, unfolds_of_exits g _ _ _ _ _ _ _ hexits, (Except.ok.inj h).symm⟩

end Graph

end Runbook
