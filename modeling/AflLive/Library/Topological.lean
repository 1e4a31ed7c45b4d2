import AflLive.Library.Control

/-! Visiting the nodes of a dependency graph. A node is visited after everything
it depends on, which an invariant over the visited nodes may use. -/
namespace AflLive.Topological
open Control
variable {α ε σ : Type} {nodes out : List α} {edges : List (α × α)}

/-- No node depends on itself, directly or through others. -/
def Acyclic (edges : List (α × α)) : Prop :=
  ∀ x, ¬ Relation.TransGen (fun u v => (u, v) ∈ edges) x x

theorem acyclic_of_rank (rank : α → Nat) (rises : ∀ edge ∈ edges, rank edge.1 < rank edge.2) :
    Acyclic edges := by
  intro x loop
  have every : ∀ y, Relation.TransGen (fun u v => (u, v) ∈ edges) x y → rank x < rank y := by
    intro y path
    induction path with
    | single edge => exact rises _ edge
    | tail _ edge ih => exact lt_trans ih (rises _ edge)
  exact lt_irrefl _ (every x loop)

/-- Where no node both depends and is depended on, there are no cycles. -/
theorem acyclic_of_apart (apart : ∀ edge ∈ edges, ∀ other ∈ edges, edge.1 ≠ other.2) : Acyclic edges := by
  intro x loop
  obtain ⟨_, leaving, _⟩ := Relation.TransGen.head'_iff.mp loop
  obtain ⟨_, _, entering⟩ := Relation.TransGen.tail'_iff.mp loop
  exact apart _ leaving _ entering rfl

/-- Every node once, each one in front of the nodes it depends on. An edge leads
from a dependency to its dependant. -/
structure ReverseTopological (nodes : List α) (edges : List (α × α)) (out : List α) : Prop where
  all : out.Perm nodes
  ordered : ∀ edge ∈ edges, [edge.2, edge.1].Sublist out

theorem ReverseTopological.earlier {u v : α} {before after : List α}
    (order : ReverseTopological nodes edges out) (nodup : nodes.Nodup)
    (split : out.reverse = before ++ v :: after) (edge : (u, v) ∈ edges) : u ∈ before := by
  have sub : [u, v].Sublist (before ++ v :: after) := by
    rw [← split]
    exact (order.ordered (u, v) edge).reverse
  have once : (before ++ v :: after).Nodup := by
    rw [← split]
    exact List.nodup_reverse.mpr (order.all.nodup_iff.mpr nodup)
  obtain ⟨first, second, same, left, right⟩ := List.sublist_append_iff.mp sub
  match first, same with
  | [], same =>
    -- then `v` would have to follow a second time
    simp only [List.nil_append] at same
    subst same
    cases right with
    | cons _ rest => exact absurd (rest.subset (by simp)) (List.nodup_cons.mp (List.nodup_append.mp once).2.1).1
    | cons_cons _ rest =>
      exact absurd (rest.subset (by simp)) (List.nodup_cons.mp (List.nodup_append.mp once).2.1).1
  | x :: xs, same =>
    simp only [List.cons_append, List.cons.injEq] at same
    exact left.subset (by simp [same.1])

/-- A fold along a topological order keeps an invariant whose step may rely on
the dependencies having been visited and the node itself not. -/
theorem visit_ensures {allowed : ε → Prop} {body : σ → α → Except ε σ} {s : σ} {I : List α → σ → Prop}
    (order : ReverseTopological nodes edges out) (nodup : nodes.Nodup) (start : I [] s)
    (step : ∀ before x after, out.reverse = before ++ x :: after → x ∈ nodes → x ∉ before →
      (∀ u, (u, x) ∈ edges → u ∈ before) → ∀ t, I before t → Ensures allowed (I (before ++ [x])) (body t x)) :
    Ensures allowed (I out.reverse) (out.reverse.foldlM body s) := by
  refine foldlM_ensures out.reverse start ?_
  intro before x after split t holds
  have once : (before ++ x :: after).Nodup := by
    rw [← split]
    exact List.nodup_reverse.mpr (order.all.nodup_iff.mpr nodup)
  refine step before x after split ?_ ?_ (fun u edge => order.earlier nodup split edge) t holds
  · have member : x ∈ out.reverse := by simp [split]
    exact order.all.subset (List.mem_reverse.mp member)
  · intro again
    exact (List.nodup_append.mp once).2.2 x again x (by simp) rfl

end AflLive.Topological
