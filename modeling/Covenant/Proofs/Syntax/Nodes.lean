import Covenant.Syntax.Node
import Mathlib.Data.List.Flatten
import Mathlib.Data.List.Nodup

/-!
The nodes of a tree are visited in pre-order, and they are all of its parts.
-/

namespace Covenant

theorem Expression.listNodes_eq (exprs : List Expression) :
    listNodes exprs = exprs.flatMap nodes := by
  induction exprs with
  | nil => rfl
  | cons first rest ih => rw [listNodes, ih, List.flatMap_cons]

theorem Statement.listNodes_eq (stmts : List Statement) :
    listNodes stmts = stmts.flatMap nodes := by
  induction stmts with
  | nil => rfl
  | cons first rest ih => rw [listNodes, ih, List.flatMap_cons]

theorem Expression.nodes_eq (expr : Expression) :
    expr.nodes = .expression expr :: expr.parts.flatMap nodes := by
  cases expr <;> simp [nodes, parts, listNodes_eq]

theorem Statement.nodes_eq (stmt : Statement) :
    stmt.nodes = .statement stmt ::
      (stmt.expressions.flatMap Expression.nodes ++ stmt.inner.flatMap nodes) := by
  cases stmt with
  | branch span condition thenBlock elseBlock =>
    obtain ⟨first, firstSpan⟩ := thenBlock
    cases elseBlock with
    | none => simp [nodes, expressions, inner, listNodes_eq, Block.statements]
    | some elseBlock =>
      obtain ⟨second, secondSpan⟩ := elseBlock
      simp [nodes, expressions, inner, listNodes_eq, Block.statements]
  | loop span condition body =>
    obtain ⟨inside, bodySpan⟩ := body
    simp [nodes, expressions, inner, listNodes_eq, Block.statements]
  | _ => simp [nodes, expressions, inner, Expression.listNodes_eq]

namespace Node

def nodes : Node → List Node
  | statement stmt => stmt.nodes
  | expression expr => expr.nodes
  | contract decl => contract decl :: (members decl).flatMap memberNodes
  | node => memberNodes node

theorem mem_members {decl : ContractDecl} {node : Node} : node ∈ members decl ↔
    (∃ found ∈ decl.fields, field found = node) ∨ (∃ found ∈ decl.inits, init found = node) ∨
      ∃ found ∈ decl.functions, function found = node := by
  simp [members]

theorem nodes_of_member {decl : ContractDecl} {node : Node} (member : node ∈ members decl) :
    memberNodes node = node.nodes := by
  rcases mem_members.mp member with ⟨found, _, rfl⟩ | ⟨found, _, rfl⟩ | ⟨found, _, rfl⟩ <;> rfl

theorem nodes_eq (node : Node) : node.nodes = node :: node.children.flatMap nodes := by
  cases node with
  | contract decl =>
    refine congrArg (contract decl :: ·) (List.flatMap_congr ?_)
    intro node member
    exact nodes_of_member member
  | field decl => rfl
  | init handler => simp [nodes, memberNodes, children, Statement.listNodes_eq, List.flatMap_map]
  | function decl => simp [nodes, memberNodes, children, Statement.listNodes_eq, List.flatMap_map]
  | statement stmt => simp [nodes, children, Statement.nodes_eq stmt, List.flatMap_map]
  | expression expr => simp [nodes, children, Expression.nodes_eq expr, List.flatMap_map]

theorem self_mem_nodes (node : Node) : node ∈ node.nodes := by
  rw [nodes_eq]
  exact List.mem_cons_self

theorem length_nodes_of_child {node child : Node} (below : child ∈ node.children) :
    child.nodes.length < node.nodes.length := by
  have inside : child.nodes.Sublist (node.children.flatMap nodes) := by
    rw [List.flatMap_def]
    exact List.sublist_flatten_of_mem (List.mem_map_of_mem below)
  rw [nodes_eq node, List.length_cons]
  exact Nat.lt_succ_of_le inside.length_le

theorem induction {motive : Node → Prop}
    (step : ∀ node, (∀ child ∈ node.children, motive child) → motive node) (node : Node) :
    motive node := by
  generalize size : node.nodes.length = bound
  induction bound using Nat.strongRecOn generalizing node with
  | ind bound ih =>
    refine step node ?_
    intro child below
    have shorter := length_nodes_of_child below
    exact ih _ (by omega) child rfl

/-- Whether the nodes of the second list are visited in order while those of the first wait. The
first one that waits is next, and its children wait in its place. -/
inductive Preorder : List Node → List Node → Prop
  | done : Preorder [] []
  | visit {node : Node} {waiting visited : List Node} :
      Preorder (node.children ++ waiting) visited →
      Preorder (node :: waiting) (node :: visited)

theorem preorder_append (node : Node) {waiting visited : List Node}
    (later : Preorder waiting visited) :
    Preorder (node :: waiting) (node.nodes ++ visited) := by
  induction node using induction generalizing waiting visited with
  | step node ih =>
    rw [nodes_eq, List.cons_append]
    refine .visit ?_
    have all : ∀ nodes : List Node, (∀ child ∈ nodes, child ∈ node.children) →
        Preorder (nodes ++ waiting) (nodes.flatMap Node.nodes ++ visited) := by
      intro nodes
      induction nodes with
      | nil => exact fun _ => later
      | cons first rest above =>
        intro below
        rw [List.flatMap_cons, List.append_assoc]
        exact ih first (below first List.mem_cons_self)
          (above fun child member => below child (.tail _ member))
    exact all node.children fun _ => id

theorem preorder_flatMap (roots : List Node) : Preorder roots (roots.flatMap nodes) := by
  induction roots with
  | nil => exact .done
  | cons first rest ih => exact preorder_append first ih

theorem child_mem_nodes {root : Node} :
    ∀ node ∈ root.nodes, ∀ child ∈ node.children, child ∈ root.nodes := by
  induction root using induction with
  | step root ih =>
    intro node member child below
    rw [nodes_eq] at member ⊢
    rcases List.mem_cons.mp member with rfl | member
    · exact .tail _ (List.mem_flatMap.mpr ⟨child, below, self_mem_nodes child⟩)
    · obtain ⟨part, inside, member⟩ := List.mem_flatMap.mp member
      exact .tail _ (List.mem_flatMap.mpr ⟨part, inside, ih part inside node member child below⟩)

theorem length_nodes_of_mem {root : Node} :
    ∀ node ∈ root.nodes, node.nodes.length ≤ root.nodes.length := by
  induction root using induction with
  | step root ih =>
    intro node member
    rw [nodes_eq] at member
    rcases List.mem_cons.mp member with rfl | member
    · exact Nat.le_refl _
    · obtain ⟨child, below, member⟩ := List.mem_flatMap.mp member
      exact Nat.le_trans (ih child below node member) (Nat.le_of_lt (length_nodes_of_child below))

end Node

namespace SyntaxTree

/-- The parts of a tree that are nodes, by the kind of what they are a part of. -/
inductive Has (tree : SyntaxTree) : Node → Prop
  | contract {decl} : decl ∈ tree.contracts → Has tree (.contract decl)
  | field {decl field} : Has tree (.contract decl) → field ∈ decl.fields → Has tree (.field field)
  | init {decl handler} : Has tree (.contract decl) → handler ∈ decl.inits →
      Has tree (.init handler)
  | function {decl function} : Has tree (.contract decl) → function ∈ decl.functions →
      Has tree (.function function)
  | handled {handler stmt} : Has tree (.init handler) → stmt ∈ handler.body.statements →
      Has tree (.statement stmt)
  | body {function stmt} : Has tree (.function function) → stmt ∈ function.body.statements →
      Has tree (.statement stmt)
  | thenBranch {span condition thenBlock elseBlock stmt} :
      Has tree (.statement (.branch span condition thenBlock elseBlock)) →
        stmt ∈ thenBlock.statements →
      Has tree (.statement stmt)
  | elseBranch {span condition thenBlock elseBlock stmt} :
      Has tree (.statement (.branch span condition thenBlock (some elseBlock))) →
        stmt ∈ elseBlock.statements →
      Has tree (.statement stmt)
  | looped {span condition body stmt} : Has tree (.statement (.loop span condition body)) →
      stmt ∈ body.statements →
      Has tree (.statement stmt)
  | declared {span name ty value} : Has tree (.statement (.declare span name ty value)) →
      Has tree (.expression value)
  | place {span map key op value} :
      Has tree (.statement (.assign span (.mapEntry map key) op value)) →
      Has tree (.expression key)
  | assigned {span target op value} : Has tree (.statement (.assign span target op value)) →
      Has tree (.expression value)
  | required {span condition message} : Has tree (.statement (.require span condition message)) →
      Has tree (.expression condition)
  | asserted {span condition} : Has tree (.statement (.assert span condition)) →
      Has tree (.expression condition)
  | branched {span condition thenBlock elseBlock} :
      Has tree (.statement (.branch span condition thenBlock elseBlock)) →
        Has tree (.expression condition)
  | repeated {span condition body} : Has tree (.statement (.loop span condition body)) →
      Has tree (.expression condition)
  | returned {span value} : Has tree (.statement (.ret span (some value))) →
      Has tree (.expression value)
  | emitted {span event args arg} : Has tree (.statement (.emit span event args)) → arg ∈ args →
      Has tree (.expression arg)
  | alone {span value} : Has tree (.statement (.expression span value)) →
      Has tree (.expression value)
  | key {span map key} : Has tree (.expression (.mapIndex span map key)) →
      Has tree (.expression key)
  | argument {span function args arg} : Has tree (.expression (.selfCall span function args)) →
      arg ∈ args →
      Has tree (.expression arg)
  | target {span kind target amount} :
      Has tree (.expression (.externalCall span kind target amount)) →
      Has tree (.expression target)
  | amount {span kind target amount} :
      Has tree (.expression (.externalCall span kind target amount)) →
      Has tree (.expression amount)
  | left {span op lhs rhs} : Has tree (.expression (.binary span op lhs rhs)) →
      Has tree (.expression lhs)
  | right {span op lhs rhs} : Has tree (.expression (.binary span op lhs rhs)) →
      Has tree (.expression rhs)
  | operand {span operand} : Has tree (.expression (.not span operand)) →
      Has tree (.expression operand)

variable {tree : SyntaxTree}

theorem nodes_eq (tree : SyntaxTree) :
    tree.nodes = (tree.contracts.map Node.contract).flatMap Node.nodes := by
  rw [List.flatMap_map]
  rfl

theorem child_mem_nodes {node child : Node} (member : node ∈ tree.nodes)
    (below : child ∈ node.children) :
    child ∈ tree.nodes := by
  rw [nodes_eq] at member ⊢
  obtain ⟨root, listed, inside⟩ := List.mem_flatMap.mp member
  exact List.mem_flatMap.mpr ⟨root, listed, Node.child_mem_nodes node inside child below⟩

theorem mem_nodes_of_has {node : Node} (has : tree.Has node) : node ∈ tree.nodes := by
  induction has with
  | @contract decl listed =>
    rw [nodes_eq]
    exact List.mem_flatMap.mpr ⟨_, List.mem_map_of_mem listed, Node.self_mem_nodes _⟩
  | field _ listed ih => exact child_mem_nodes ih (Node.mem_members.mpr (.inl ⟨_, listed, rfl⟩))
  | init _ listed ih =>
    exact child_mem_nodes ih (Node.mem_members.mpr (.inr (.inl ⟨_, listed, rfl⟩)))
  | function _ listed ih =>
    exact child_mem_nodes ih (Node.mem_members.mpr (.inr (.inr ⟨_, listed, rfl⟩)))
  | handled _ listed ih => exact child_mem_nodes ih (List.mem_map_of_mem listed)
  | body _ listed ih => exact child_mem_nodes ih (List.mem_map_of_mem listed)
  | @thenBranch _ _ _ elseBlock _ _ listed ih =>
    cases elseBlock <;> exact child_mem_nodes ih (by simp [Node.children, Statement.inner, listed])
  | elseBranch _ listed ih =>
    exact child_mem_nodes ih (by simp [Node.children, Statement.inner, listed])
  | looped _ listed ih =>
    exact child_mem_nodes ih (by simp [Node.children, Statement.inner, listed])
  | place _ ih =>
    exact child_mem_nodes ih (by simp [Node.children, Statement.expressions, Place.key?])
  | emitted _ listed ih =>
    exact child_mem_nodes ih (by simp [Node.children, Statement.expressions, listed])
  | declared _ ih | assigned _ ih | required _ ih | asserted _ ih | branched _ ih | repeated _ ih
      | returned _ ih
  | alone _ ih => exact child_mem_nodes ih (by simp [Node.children, Statement.expressions])
  | argument _ listed ih =>
    exact child_mem_nodes ih (by simp [Node.children, Expression.parts, listed])
  | key _ ih | target _ ih | amount _ ih | left _ ih | right _ ih | operand _ ih =>
    exact child_mem_nodes ih (by simp [Node.children, Expression.parts])

theorem Has.inner {outer stmt : Statement} (has : tree.Has (.statement outer))
    (below : stmt ∈ outer.inner) :
    tree.Has (.statement stmt) := by
  cases outer with
  | branch span condition thenBlock elseBlock =>
    cases elseBlock with
    | none => exact .thenBranch has below
    | some elseBlock =>
      rcases List.mem_append.mp below with first | second
      · exact .thenBranch has first
      · exact .elseBranch has second
  | loop span condition body => exact .looped has below
  | _ => cases below

theorem Has.expressions {stmt : Statement} {expr : Expression} (has : tree.Has (.statement stmt))
    (below : expr ∈ stmt.expressions) : tree.Has (.expression expr) := by
  cases stmt with
  | assign span target op value =>
    rcases List.mem_append.mp below with inside | value
    · cases target with
      | mapEntry map key =>
        obtain rfl := List.mem_singleton.mp inside
        exact .place has
      | slot name => cases inside
      | field name => cases inside
    · obtain rfl := List.mem_singleton.mp value
      exact .assigned has
  | revert span message => cases below
  | ret span value =>
    cases value with
    | none => cases below
    | some value =>
      obtain rfl := List.mem_singleton.mp below
      exact .returned has
  | emit span event args => exact .emitted has below
  | declare =>
    obtain rfl := List.mem_singleton.mp below
    exact .declared has
  | require =>
    obtain rfl := List.mem_singleton.mp below
    exact .required has
  | assert =>
    obtain rfl := List.mem_singleton.mp below
    exact .asserted has
  | branch =>
    obtain rfl := List.mem_singleton.mp below
    exact .branched has
  | loop =>
    obtain rfl := List.mem_singleton.mp below
    exact .repeated has
  | expression =>
    obtain rfl := List.mem_singleton.mp below
    exact .alone has

theorem Has.parts {outer expr : Expression} (has : tree.Has (.expression outer))
    (below : expr ∈ outer.parts) :
    tree.Has (.expression expr) := by
  cases outer with
  | mapIndex =>
    obtain rfl := List.mem_singleton.mp below
    exact .key has
  | selfCall => exact .argument has below
  | externalCall =>
    rcases List.mem_pair.mp below with rfl | rfl
    · exact .target has
    · exact .amount has
  | binary =>
    rcases List.mem_pair.mp below with rfl | rfl
    · exact .left has
    · exact .right has
  | not =>
    obtain rfl := List.mem_singleton.mp below
    exact .operand has
  | _ => cases below

theorem Has.child {node child : Node} (has : tree.Has node) (below : child ∈ node.children) :
    tree.Has child := by
  cases node with
  | contract decl =>
    rcases Node.mem_members.mp below with ⟨found, listed, rfl⟩ | ⟨found, listed, rfl⟩
      | ⟨found, listed, rfl⟩
    · exact .field has listed
    · exact .init has listed
    · exact .function has listed
  | field decl => cases below
  | init handler =>
    obtain ⟨stmt, listed, rfl⟩ := List.mem_map.mp below
    exact .handled has listed
  | function decl =>
    obtain ⟨stmt, listed, rfl⟩ := List.mem_map.mp below
    exact .body has listed
  | statement stmt =>
    rcases List.mem_append.mp below with inside | inside
    · obtain ⟨expr, listed, rfl⟩ := List.mem_map.mp inside
      exact has.expressions listed
    · obtain ⟨other, listed, rfl⟩ := List.mem_map.mp inside
      exact has.inner listed
  | expression expr =>
    obtain ⟨part, listed, rfl⟩ := List.mem_map.mp below
    exact has.parts listed

theorem has_of_preorder {waiting visited : List Node} (order : Node.Preorder waiting visited)
    (parts : ∀ node ∈ waiting, tree.Has node) : ∀ node ∈ visited, tree.Has node := by
  induction order with
  | done => simp
  | @visit node waiting visited _ ih =>
    have first := parts node List.mem_cons_self
    have later : ∀ other ∈ node.children ++ waiting, tree.Has other := by
      intro other member
      rcases List.mem_append.mp member with below | waits
      · exact first.child below
      · exact parts other (.tail _ waits)
    intro other member
    rcases List.mem_cons.mp member with rfl | member
    · exact first
    · exact ih later other member

theorem preorder_nodes (tree : SyntaxTree) :
    Node.Preorder (tree.contracts.map Node.contract) tree.nodes := by
  rw [nodes_eq]
  exact Node.preorder_flatMap _

theorem mem_nodes_iff {node : Node} : node ∈ tree.nodes ↔ tree.Has node := by
  constructor
  · refine has_of_preorder tree.preorder_nodes ?_ node
    intro root listed
    obtain ⟨decl, inside, rfl⟩ := List.mem_map.mp listed
    exact .contract inside
  · exact mem_nodes_of_has

end SyntaxTree

end Covenant
