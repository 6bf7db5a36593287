import MethodFlow.Proofs.Flow.Subroutines
import MethodFlow.Proofs.Tree.Whole
import Mathlib.Data.List.Flatten

/-!
Walks in both directions. A walk that goes on everywhere meets every node of a subtree once.
Backwards, it meets the nodes without children in the opposite order. What has children is met
before what is below it in either direction, so the order of all nodes is not turned round.
-/

namespace MethodFlow

def Visitor.facing (v : Visitor) (d : Direction) : Visitor := { v with direction := d }

/-- The visitor records every node and goes on below it. -/
structure Visitor.Thorough (v : Visitor) : Prop where
  unpruned : v.pruned = false
  records : ∀ node, ∃ category descent, v.decision node = some (category, descent) ∧
    descent ≠ .never

theorem Visitor.Thorough.descends {v : Visitor} (h : v.Thorough) (node : Node) :
    v.descends (v.decision node) = true := by
  obtain ⟨category, descent, hdecision, hnever⟩ := h.records node
  rw [hdecision]
  cases descent with
  | children => simp [Visitor.descends, h.unpruned]
  | always => rfl
  | never => exact absurd rfl hnever

@[simp] theorem Direction.mem_orient {α : Type} {d : Direction} {xs : List α} {x : α} :
    x ∈ d.orient xs ↔ x ∈ xs := by
  cases d <;> simp [orient]

namespace Node

/-- The children of each form of node, in either direction: what is read comes before what is
written, and backwards it is the other way round. -/
def siblings : Node → Direction → List NodeId
  | .binary _ left right _, .forward => [left, right]
  | .binary _ left right _, .reverse => [right, left]
  | .eval value, _ | .returnValue value, _ => [value]
  | .store target value, .forward => [value, target]
  | .store target value, .reverse => [target, value]
  | .shuffle _ targets sources, .forward => sources ++ targets
  | .shuffle _ targets sources, .reverse => targets.reverse ++ sources.reverse
  | .phi p, .forward => p.operands ++ [p.target]
  | .phi p, .reverse => p.target :: p.operands.reverse
  | .occurrence _, _ | .literal _, _ | .returnAddress, _ | .returnVoid, _ | .saveAddress _, _ => []

theorem visitOrder_eq_siblings (node : Node) (d : Direction) :
    node.visitOrder d = node.siblings d := by
  cases node <;> cases d <;> simp [visitOrder, siblings, reads, writes, Direction.orient]

theorem visitOrder_perm (node : Node) (d : Direction) : (node.visitOrder d).Perm node.children := by
  have hforward : (node.reads ++ node.writes).Perm node.children := List.perm_append_comm
  cases d with
  | forward => exact hforward
  | reverse => exact (List.reverse_perm _).trans hforward

theorem visitOrder_eq_nil {node : Node} (h : node.children = []) (d : Direction) :
    node.visitOrder d = [] :=
  List.perm_nil.1 (h ▸ node.visitOrder_perm d)

end Node

namespace Tree

variable {t : Tree} {v : Visitor} {m n : NodeId} {s : Slot} {limit : Nat}

theorem visitOrder_of_slot (hs : t.slot? n = some s) (d : Direction) :
    t.visitOrder n d = s.node.visitOrder d := by
  rw [visitOrder, node?_eq_some.2 ⟨s, hs, rfl⟩]
  rfl

/-- Ways down end where children are older than their parents. -/
theorem ends_of_older (older : ∀ i < t.size, ∀ c ∈ t.visitOrder ⟨i⟩ .forward, c.index < i)
    (n : NodeId) :
    t.Ends n := by
  obtain ⟨i⟩ := n
  induction i using Nat.strongRecOn with
  | ind i ih =>
    refine .node fun s hs c hc => ih c.index (older i (index_lt_size hs) c ?_)
    rw [visitOrder_of_slot hs]
    exact mem_visitOrder.2 hc

/-- A deeper walk records the same where no way down is that deep. -/
theorem Within.walkTo_eq (h : t.Within limit n) {deeper : Nat} (hle : limit ≤ deeper) :
    t.walkTo v deeper n = t.walkTo v limit n := by
  induction limit generalizing n deeper with
  | zero =>
    cases hs : t.slot? n with
    | none => cases deeper <;> simp [walkTo, node?, hs]
    | some s => exact absurd (h 0 n (.self hs)) (Nat.not_lt_zero 0)
  | succ limit ih =>
    obtain ⟨deeper, rfl⟩ : ∃ l, deeper = l + 1 := ⟨deeper - 1, by omega⟩
    cases hs : t.slot? n with
    | none => simp [walkTo, node?, hs]
    | some s =>
      obtain ⟨rest, hrest, hbelow⟩ := h.exists_limit hs
      obtain rfl : limit = rest := Nat.succ.inj hrest
      rw [walkTo_succ hs, walkTo_succ hs]
      congr 2
      exact List.flatMap_congr fun c hc => ih (hbelow c (mem_visitOrder.1 hc)) (by omega)

/-- A thorough walk meets all that stands at or below a node. -/
theorem Ends.mem_walk (h : t.Ends n) (thorough : v.Thorough) :
    m ∈ (t.walk v n).map Prod.snd ↔ m ∈ t.subtree n := by
  constructor
  · intro hm
    obtain ⟨j, -, hunder⟩ := under_of_mem_walkTo hm
    exact ⟨j, hunder⟩
  · rintro ⟨j, hunder⟩
    obtain ⟨s, hs⟩ : ∃ s, t.slot? m = some s := by
      cases hunder with
      | self hs | child _ _ _ hs => exact ⟨_, hs⟩
    obtain ⟨category, descent, hdecision, -⟩ := thorough.records s.node
    have hmem : (category, m) ∈ t.walk v n :=
      mem_walkTo_of_under hunder (h.within_size j m hunder) hs hdecision
        fun _ _ _ sp _ _ _ => thorough.descends sp.node
    exact List.mem_map_of_mem hmem

theorem Ends.nodup_walk (h : t.Ends n) (owns : t.OwnsChildren) :
    ((t.walk v n).map Prod.snd).Nodup := by
  cases hs : t.slot? n with
  | none =>
    have hnone (limit : Nat) : t.walkTo v limit n = [] := by
      cases limit <;> simp [walkTo, node?, hs]
    simp [walk, hnone]
  | some s => exact nodup_walkTo owns (h.depth_unique owns) (.self hs)

def childless (t : Tree) (n : NodeId) : Bool := (t.node? n).any (·.children.isEmpty)

theorem childless_of_slot (hs : t.slot? n = some s) : t.childless n = s.node.children.isEmpty := by
  rw [childless, node?_eq_some.2 ⟨s, hs, rfl⟩]
  rfl

theorem childless_walkTo_reverse :
    ((t.walkTo (v.facing .reverse) limit n).map Prod.snd).filter t.childless =
      (((t.walkTo (v.facing .forward) limit n).map Prod.snd).filter t.childless).reverse := by
  induction limit generalizing n with
  | zero => rfl
  | succ limit ih =>
    cases hs : t.slot? n with
    | none => simp [walkTo, node?, hs]
    | some s =>
      have hchildless := childless_of_slot hs
      -- Neither what is recorded here nor whether the walk goes on depends on the direction.
      have hstep (d : Direction) : (t.walkTo (v.facing d) (limit + 1) n).map Prod.snd =
          ((v.decision s.node).map fun _ => n).toList ++ if v.descends (v.decision s.node) then
            (s.node.visitOrder d).flatMap fun c =>
              (t.walkTo (v.facing d) limit c).map Prod.snd else [] := by
        rw [walkTo_succ hs, List.map_append, apply_ite (List.map Prod.snd), List.map_flatMap]
        refine congrArg₂ (· ++ ·) ?_ rfl
        show ((v.decision s.node).map fun p => (p.1, n)).toList.map Prod.snd = _
        cases v.decision s.node <;> rfl
      rw [hstep, hstep, List.filter_append, List.filter_append]
      by_cases hchildren : s.node.children = []
      · -- This node is all that there is to record.
        rw [Node.visitOrder_eq_nil hchildren, Node.visitOrder_eq_nil hchildren]
        cases v.decision s.node <;> simp [hchildless, hchildren]
      · -- This node does not count, and its children come in the opposite order.
        have hhere : ((v.decision s.node).map fun _ => n).toList.filter t.childless = [] := by
          cases v.decision s.node <;> simp [hchildless, hchildren]
        rw [hhere, List.nil_append, List.nil_append]
        split
        · have hturned : s.node.visitOrder .reverse = (s.node.visitOrder .forward).reverse := rfl
          rw [List.filter_flatMap, List.filter_flatMap, List.reverse_flatMap, hturned]
          exact List.flatMap_congr fun c _ => ih
        · rfl

end Tree

namespace Visit

def nodes (visits : List Visit) : List NodeId :=
  visits.filterMap fun
    | .block _ => none
    | .node _ n => some n

theorem nodes_append (xs ys : List Visit) : nodes (xs ++ ys) = nodes xs ++ nodes ys :=
  List.filterMap_append

theorem nodes_flatMap {α : Type} (xs : List α) (visits : α → List Visit) :
    nodes (xs.flatMap visits) = xs.flatMap fun x => nodes (visits x) :=
  List.filterMap_flatMap

theorem nodes_ofNodes (met : List (Category × NodeId)) :
    nodes (ofNodes met) = met.map Prod.snd := by
  simp [nodes, ofNodes, List.filterMap_map]

theorem nodes_block (v : Visitor) (b : BlockId) :
    nodes (if v.atBlocks then [.block b] else []) = [] := by
  split <;> rfl

end Visit

namespace FlowGraph

variable {f : FlowGraph} {v : Visitor} {b : BlockId}

section thorough

variable (ends : ∀ n, f.tree.Ends n) (thorough : v.Thorough)

include ends thorough

theorem mem_walkBlock {m : NodeId} :
    m ∈ Visit.nodes (f.walkBlock v b) ↔ ∃ n ∈ f.statements b, m ∈ f.tree.subtree n := by
  rw [walkBlock, walkStatements, Visit.nodes_append, Visit.nodes_block, List.nil_append,
    Visit.nodes_flatMap, List.mem_flatMap]
  simp only [Visit.nodes_ofNodes, (ends _).mem_walk thorough, Direction.mem_orient]

theorem mem_walk {m : NodeId} :
    m ∈ Visit.nodes (f.walk v) ↔ ∃ b ∈ f.preorder, ∃ n ∈ f.statements b, m ∈ f.tree.subtree n := by
  rw [walk, Visit.nodes_flatMap, List.mem_flatMap]
  simp only [mem_walkBlock ends thorough, Direction.mem_orient]

end thorough

theorem childless_turned {α : Type} (xs : List α) {forth back : α → List Visit}
    (hturned : ∀ x, (Visit.nodes (back x)).filter f.tree.childless =
      ((Visit.nodes (forth x)).filter f.tree.childless).reverse) :
    (Visit.nodes (xs.reverse.flatMap back)).filter f.tree.childless =
      ((Visit.nodes (xs.flatMap forth)).filter f.tree.childless).reverse := by
  rw [Visit.nodes_flatMap, Visit.nodes_flatMap, List.filter_flatMap, List.filter_flatMap,
    List.reverse_flatMap]
  exact List.flatMap_congr fun x _ => hturned x

theorem childless_walkBlock_reverse :
    (Visit.nodes (f.walkBlock (v.facing .reverse) b)).filter f.tree.childless =
      ((Visit.nodes (f.walkBlock (v.facing .forward) b)).filter f.tree.childless).reverse := by
  rw [walkBlock, walkBlock, Visit.nodes_append, Visit.nodes_append, Visit.nodes_block,
    Visit.nodes_block, List.nil_append, List.nil_append]
  refine childless_turned (f.statements b) fun n => ?_
  rw [Visit.nodes_ofNodes, Visit.nodes_ofNodes]
  exact Tree.childless_walkTo_reverse

theorem childless_walk_reverse :
    (Visit.nodes (f.walk (v.facing .reverse))).filter f.tree.childless =
      ((Visit.nodes (f.walk (v.facing .forward))).filter f.tree.childless).reverse :=
  childless_turned f.preorder fun _ => childless_walkBlock_reverse

/-- Backwards, the children of a node are visited in the opposite order, and in either direction
they are all visited, in the order that the form of the node has. If nodes own their children and
every way down ends, then no walk is cut short, and a walk that goes on everywhere records each node
in use at or below its start once, and in a block or the whole graph what stands at and below the
statements. What a walk records without children, it records backwards in the opposite order, at a
node, in a block and in the whole graph. -/
theorem walks_mirrored (f : FlowGraph) (owns : f.tree.OwnsChildren) (ends : ∀ n, f.tree.Ends n) :
    (∀ n children, f.tree.children n = .ok children →
      f.tree.visitOrder n .reverse = (f.tree.visitOrder n .forward).reverse ∧
        ∀ d, (f.tree.visitOrder n d).Perm children) ∧
      (∀ n node d, f.tree.node? n = some node → f.tree.visitOrder n d = node.siblings d) ∧
      (∀ (v : Visitor) n limit, f.tree.size ≤ limit → f.tree.walkTo v limit n = f.tree.walk v n) ∧
      (∀ (v : Visitor) n, v.Thorough → ((f.tree.walk v n).map Prod.snd).Nodup ∧
        ∀ m, m ∈ (f.tree.walk v n).map Prod.snd ↔ m ∈ f.tree.subtree n) ∧
      (∀ (v : Visitor) m, v.Thorough →
        (∀ b, m ∈ Visit.nodes (f.walkBlock v b) ↔ ∃ n ∈ f.statements b, m ∈ f.tree.subtree n) ∧
        (m ∈ Visit.nodes (f.walk v) ↔ ∃ b ∈ f.preorder, ∃ n ∈ f.statements b,
          m ∈ f.tree.subtree n)) ∧
      ∀ v : Visitor,
        (∀ n, ((f.tree.walk (v.facing .reverse) n).map Prod.snd).filter f.tree.childless =
          (((f.tree.walk (v.facing .forward) n).map Prod.snd).filter f.tree.childless).reverse) ∧
        (∀ b, (Visit.nodes (f.walkBlock (v.facing .reverse) b)).filter f.tree.childless =
          ((Visit.nodes (f.walkBlock (v.facing .forward) b)).filter f.tree.childless).reverse) ∧
        (Visit.nodes (f.walk (v.facing .reverse))).filter f.tree.childless =
          ((Visit.nodes (f.walk (v.facing .forward))).filter f.tree.childless).reverse := by
  refine ⟨fun n children hchildren => ?_, fun n node d hnode => ?_, fun v n limit hle =>
    (ends n).within_size.walkTo_eq hle, fun v n thorough => ⟨(ends n).nodup_walk owns, fun m =>
    (ends n).mem_walk thorough⟩, fun v m thorough => ⟨fun b => mem_walkBlock ends thorough,
    mem_walk ends thorough⟩, fun v => ⟨fun n => Tree.childless_walkTo_reverse,
    fun b => childless_walkBlock_reverse, childless_walk_reverse⟩⟩
  · obtain ⟨node, hnode, rfl⟩ := Except.map_eq_ok.1 hchildren
    obtain ⟨s, hs, rfl⟩ := Tree.node?_eq_some.1 (Tree.node_ok.1 hnode)
    simp only [Tree.visitOrder_of_slot hs]
    exact ⟨rfl, s.node.visitOrder_perm⟩
  · obtain ⟨s, hs, rfl⟩ := Tree.node?_eq_some.1 hnode
    rw [Tree.visitOrder_of_slot hs, Node.visitOrder_eq_siblings]

/-- The entry stores a sum, and the block behind it exchanges two variables. -/
def exchanging : FlowGraph := (ofLabel 0).requests
  [.addBlock 1, .addEdge ⟨0⟩ ⟨1⟩ .normal, .tree (.newVariable (.ofLocal 0) .int),
    .tree (.newLiteral (.int 1)), .tree (.newLiteral (.int 2)),
    .tree (.newBinary .add ⟨1⟩ ⟨2⟩ .int), .tree (.newStore ⟨0⟩ ⟨3⟩), .appendStatement ⟨0⟩ ⟨4⟩,
    .tree (.newVariable (.ofStack 0) .int), .tree (.newVariable (.ofStack 1) .int),
    .tree (.newVariable (.ofStack 1) .int), .tree (.newVariable (.ofStack 0) .int),
    .tree (.newShuffle .swap [⟨5⟩, ⟨6⟩] [⟨7⟩, ⟨8⟩]), .appendStatement ⟨1⟩ ⟨9⟩]

def everyNode : Visitor where
  at? category := if category = .node then some .children else none

theorem thorough_everyNode : everyNode.Thorough where
  unpruned := rfl
  records node := ⟨.node, .children, by
    cases node with
    | occurrence o =>
      cases hlocal : o.var.isLocal <;> simp [Visitor.decision, Node.categories, everyNode, hlocal]
    | phi p => cases hkind : p.kind <;> simp [Visitor.decision, Node.categories, everyNode, hkind]
    | _ => simp [Visitor.decision, Node.categories, everyNode], by decide⟩

theorem exchanging_walks_mirrored : exchanging.tree.OwnsChildren ∧ (∀ n, exchanging.tree.Ends n) ∧
    ((exchanging.tree.walk everyNode ⟨4⟩).map Prod.snd).Nodup ∧
    (Visit.nodes (exchanging.walk (everyNode.facing .forward))).filter exchanging.tree.childless =
      [⟨1⟩, ⟨2⟩, ⟨0⟩, ⟨7⟩, ⟨8⟩, ⟨5⟩, ⟨6⟩] ∧
    (Visit.nodes (exchanging.walk (everyNode.facing .reverse))).filter exchanging.tree.childless =
      [⟨6⟩, ⟨5⟩, ⟨8⟩, ⟨7⟩, ⟨0⟩, ⟨2⟩, ⟨1⟩] := by
  have made : exchanging.Made := ⟨0, _, rfl⟩
  have owns := made.coherent.tree.ownsChildren
  have ends := Tree.ends_of_older (t := exchanging.tree) (by decide +kernel)
  obtain ⟨-, -, -, honce, -, hturned⟩ := walks_mirrored exchanging owns ends
  have hforward : (Visit.nodes (exchanging.walk (everyNode.facing .forward))).filter
      exchanging.tree.childless = [⟨1⟩, ⟨2⟩, ⟨0⟩, ⟨7⟩, ⟨8⟩, ⟨5⟩, ⟨6⟩] := by decide +kernel
  refine ⟨owns, ends, (honce everyNode ⟨4⟩ thorough_everyNode).1, hforward, ?_⟩
  rw [(hturned everyNode).2.2, hforward]
  rfl

end FlowGraph

end MethodFlow
