import ScopeScript.Grammar.Rule
import ScopeScript.Grammar.Token
import ScopeScript.Text.Blank

/-!
# Parse trees

A node of a parse tree names the production it was built from and holds its items in order: child
nodes and leaf tokens. Children are addressed by production and position among the children of that
production, tokens by kind.

* `child?_eq_none_iff`: a position holds a child exactly when it is below the number of children.
* `token?_eq_none_iff`: a kind of token is absent exactly when no item is such a token.
* `induction_on_items`: what a node has from the nodes among its items holds of every node.
-/

namespace ScopeScript

mutual

/-- A node of a parse tree: a production and the items it was built from. -/
inductive Node where
  | mk (rule : Rule) (items : List Item)

/-- One element of a node: a child node, or a leaf token with its text. -/
inductive Item where
  | node (child : Node)
  | token (kind : Token) (text : String)

end

namespace Node

/-- The production that the node was built from. -/
def rule : Node → Rule
  | mk r _ => r

/-- The elements of the node, in order. -/
def items : Node → List Item
  | mk _ is => is

/-- A node built from a production was built from it. -/
@[simp]
theorem rule_mk (r : Rule) (is : List Item) : (mk r is).rule = r := rfl

/-- A node holds the items that it was built with. -/
@[simp]
theorem items_mk (r : Rule) (is : List Item) : (mk r is).items = is := rfl

end Node

/-! ### Equality of trees -/

mutual

/-- Whether two nodes agree in production and items. -/
def Node.beq : Node → Node → Bool
  | .mk r is, .mk s js => decide (r = s) && Item.beqAll is js

/-- Whether two items are equal child nodes, or tokens of one kind and text. -/
def Item.beq : Item → Item → Bool
  | .node n, .node m => Node.beq n m
  | .token k s, .token l t => decide (k = l) && decide (s = t)
  | .node _, .token _ _ => false
  | .token _ _, .node _ => false

/-- Whether two lists of items agree item by item. -/
def Item.beqAll : List Item → List Item → Bool
  | [], [] => true
  | i :: is, j :: js => Item.beq i j && Item.beqAll is js
  | [], _ :: _ => false
  | _ :: _, [] => false

end

mutual

/-- The equality test on nodes decides equality. -/
theorem Node.beq_iff_eq : ∀ n m : Node, Node.beq n m = true ↔ n = m
  | .mk r is, .mk s js => by simp [Node.beq, Item.beqAll_iff_eq is js]

/-- The equality test on items decides equality. -/
theorem Item.beq_iff_eq : ∀ i j : Item, Item.beq i j = true ↔ i = j
  | .node n, .node m => by simp [Item.beq, Node.beq_iff_eq n m]
  | .token _ _, .token _ _ => by simp [Item.beq]
  | .node _, .token _ _ => by simp [Item.beq]
  | .token _ _, .node _ => by simp [Item.beq]

/-- The equality test on lists of items decides equality. -/
theorem Item.beqAll_iff_eq : ∀ is js : List Item, Item.beqAll is js = true ↔ is = js
  | [], [] => by simp [Item.beqAll]
  | i :: is, j :: js => by
    simp [Item.beqAll, Item.beq_iff_eq i j, Item.beqAll_iff_eq is js]
  | [], _ :: _ => by simp [Item.beqAll]
  | _ :: _, [] => by simp [Item.beqAll]

end

instance : DecidableEq Node := fun n m =>
  decidable_of_iff (Node.beq n m = true) (Node.beq_iff_eq n m)

instance : DecidableEq Item := fun i j =>
  decidable_of_iff (Item.beq i j = true) (Item.beq_iff_eq i j)

/-! ### Children and tokens -/

namespace Item

/-- The child node that an item is, if it is one built from the production `r`. -/
def childOf? (r : Rule) : Item → Option Node
  | .node n => if n.rule = r then some n else none
  | .token _ _ => none

/-- The text of an item, if it is a token of kind `k`. -/
def textOf? (k : Token) : Item → Option String
  | .node _ => none
  | .token l text => if l = k then some text else none

/-- The child nodes built from the production `r` among several items, in order. -/
def childrenOf (r : Rule) (is : List Item) : List Node :=
  is.filterMap (childOf? r)

/-- No items hold no children. -/
@[simp]
theorem childrenOf_nil (r : Rule) : childrenOf r [] = [] := rfl

/-- A token is no child. -/
@[simp]
theorem childrenOf_token (r : Rule) (k : Token) (s : String) (is : List Item) :
    childrenOf r (.token k s :: is) = childrenOf r is := rfl

/-- A child node counts if it was built from the production. -/
@[simp]
theorem childrenOf_node (r : Rule) (n : Node) (is : List Item) :
    childrenOf r (.node n :: is) =
      if n.rule = r then n :: childrenOf r is else childrenOf r is := by
  by_cases h : n.rule = r <;> simp [childrenOf, childOf?, h]

end Item

namespace Node

/-- The children built from a production, in order. -/
def children (n : Node) (r : Rule) : List Node :=
  Item.childrenOf r n.items

/-- The child built from a production that stands at a position among the children so built. -/
def child? (n : Node) (r : Rule) (index : Nat) : Option Node :=
  (n.children r)[index]?

/-- The number of children built from a production. -/
def childCount (n : Node) (r : Rule) : Nat :=
  (n.children r).length

/-- Whether some child was built from a production. -/
def hasChild (n : Node) (r : Rule) : Bool :=
  (n.child? r 0).isSome

/-- The text of the first token of a kind. -/
def token? (n : Node) (k : Token) : Option String :=
  n.items.findSome? (Item.textOf? k)

/-- Whether some token is of a kind. -/
def hasToken (n : Node) (k : Token) : Bool :=
  (n.token? k).isSome

/-- A position holds a child exactly when it is below the number of children. -/
theorem child?_eq_none_iff {n : Node} {r : Rule} {index : Nat} :
    n.child? r index = none ↔ n.childCount r ≤ index := by
  simp [child?, childCount]

/-- A child found by its production was built from it. -/
theorem rule_of_mem_children {n m : Node} {r : Rule} (h : m ∈ n.children r) : m.rule = r := by
  obtain ⟨i, -, hi⟩ := List.mem_filterMap.1 h
  cases i with
  | token k t => simp [Item.childOf?] at hi
  | node c =>
    simp only [Item.childOf?] at hi
    split at hi
    · next hc => exact Option.some.inj hi ▸ hc
    · simp at hi

/-- A child found by production and position was built from that production. -/
theorem rule_of_child? {n m : Node} {r : Rule} {index : Nat} (h : n.child? r index = some m) :
    m.rule = r :=
  rule_of_mem_children (List.mem_of_getElem? h)

/-- A child that is found by its production is an item. -/
theorem node_mem_of_mem_children {n m : Node} {r : Rule} (h : m ∈ n.children r) :
    .node m ∈ n.items := by
  obtain ⟨i, hi, hchild⟩ := List.mem_filterMap.1 h
  cases i with
  | token k text => cases hchild
  | node c =>
    simp only [Item.childOf?, Option.ite_none_right_eq_some, Option.some.injEq] at hchild
    exact hchild.2 ▸ hi

/-- A child that is found by its production and position is an item. -/
theorem node_mem_of_child? {n m : Node} {r : Rule} {index : Nat} (h : n.child? r index = some m) :
    .node m ∈ n.items :=
  node_mem_of_mem_children (List.mem_of_getElem? h)

/-- A node among the items is smaller. -/
theorem sizeOf_lt_of_mem_items {n m : Node} (h : .node m ∈ n.items) : sizeOf m < sizeOf n := by
  obtain ⟨r, is⟩ := n
  have hitem := List.sizeOf_lt_of_mem h
  simp only [items_mk, Item.node.sizeOf_spec, mk.sizeOf_spec] at hitem ⊢
  omega

/-- A property of all nodes, proved of each from the nodes among its items. -/
theorem induction_on_items {P : Node → Prop}
    (h : ∀ n, (∀ m, .node m ∈ n.items → P m) → P n) (n : Node) : P n :=
  h n fun m _ => induction_on_items h m
termination_by sizeOf n
decreasing_by exact sizeOf_lt_of_mem_items ‹_›

/-- A kind of token is absent exactly when no item is a token of that kind. -/
theorem token?_eq_none_iff {n : Node} {k : Token} :
    n.token? k = none ↔ ∀ text, Item.token k text ∉ n.items := by
  simp only [token?, List.findSome?_eq_none_iff]
  constructor
  · intro h text hm
    simpa [Item.textOf?] using h _ hm
  · intro h i hi
    cases i with
    | node c => rfl
    | token l text =>
      simp only [Item.textOf?, ite_eq_right_iff, reduceCtorEq, imp_false]
      intro e
      exact h text (e ▸ hi)

end Node

/-! ### Text -/

mutual

/-- The text that a node covers: the texts of its items, less the blank ones, with one space
between each two. -/
def Node.text : Node → String
  | .mk _ is => " ".intercalate ((Item.texts is).filter fun s => !Text.isBlank s)

/-- The text of an item: that of the child node, or the token's own. -/
def Item.text : Item → String
  | .node n => Node.text n
  | .token _ s => s

/-- The texts of several items, in order. -/
def Item.texts : List Item → List String
  | [] => []
  | i :: is => Item.text i :: Item.texts is

end

end ScopeScript
