import ScopeScript.Proofs.Program.Parts

/-!
# The leaves that reading takes up

What is read from a node has the leaves that are reached from part to part, and no others, in their
order; between two links of a comparison an operand is repeated, and so are its leaves.

* `Expr.leaves`: the names and the numbers of an expression.
* `Node.taken`: the leaves that are reached from part to part.
* `Rule.Makes.leaves_eq`: what is made of expressions has their leaves.

Main statement:

* `Node.leaves_of_readAs`: an expression that is read has the leaves that are taken up.
-/

namespace ScopeScript

/-! ### Leaves -/

/-- A leaf of an expression: a name, or a number with the word that it denotes, if it denotes
one. -/
inductive Leaf where
  | name (id : String)
  | number (value : Option Int64)
  deriving DecidableEq

/-- The leaf that a token of an atom is, if it is one. -/
def Token.leaf? : Token → String → Option Leaf
  | .name, text => some (.name text)
  | .number, text => some (.number (Literal.read? text))
  | _, _ => none

namespace Expr

mutual

/-- The names and numbers of an expression, in order. -/
def leaves : Expr → List Leaf
  | none | bool _ => []
  | int n => [.number (some n)]
  | name id => [.name id]
  | unary _ a => a.leaves
  | binary _ a b => a.leaves ++ b.leaves
  | ternary b c o => b.leaves ++ c.leaves ++ o.leaves
  | call f as => f.leaves ++ leavesAll as

/-- The names and numbers of several expressions, in order. -/
def leavesAll : List Expr → List Leaf
  | [] => []
  | e :: es => e.leaves ++ leavesAll es

end

/-- The leaves of several expressions are the leaves of each. -/
theorem leavesAll_eq_flatMap (es : List Expr) : leavesAll es = es.flatMap leaves := by
  induction es with
  | nil => rfl
  | cons e es ih => rw [leavesAll, ih, List.flatMap_cons]

/-- The leaves of operands joined by an operator. -/
theorem leaves_foldl_binary (op : BinaryOp) (e : Expr) (es : List Expr) :
    (es.foldl (binary op) e).leaves = e.leaves ++ es.flatMap leaves := by
  induction es generalizing e with
  | nil => simp
  | cons a as ih => rw [List.foldl_cons, ih, leaves, List.flatMap_cons, List.append_assoc]

/-- The leaves of a chain that goes on from a finished part. -/
theorem leaves_chainFrom (acc previous : Expr) (links : List (BinaryOp × Expr)) :
    (acc.chainFrom previous links).leaves =
      acc.leaves ++ (linked (previous :: links.map Prod.snd)).tail.flatMap leaves := by
  induction links generalizing acc previous with
  | nil => simp [chainFrom, linked]
  | cons l ls ih =>
    obtain ⟨op, e⟩ := l
    rw [chainFrom, ih]
    cases ls <;> simp [leaves, linked]

/-- The leaves of a chain are those of its first operand and of the operands of its links. -/
theorem leaves_chain (first : Expr) (links : List (BinaryOp × Expr)) :
    (first.chain links).leaves =
      first.leaves ++ (linked (links.map Prod.snd)).flatMap leaves := by
  cases links with
  | nil => simp [chain, linked]
  | cons l ls =>
    obtain ⟨op, e⟩ := l
    rw [chain, leaves_chainFrom]
    cases ls <;> simp [leaves, linked]

end Expr

/-- What a production makes of expressions has their leaves. -/
theorem Rule.Makes.leaves_eq {r : Rule} {es : List Expr} {e : Expr} (h : r.Makes es e) :
    e.leaves = es.flatMap Expr.leaves := by
  cases h with
  | disjoined | conjoined => exact Expr.leaves_foldl_binary _ _ _
  | chained => exact Expr.leaves_chain _ _
  | called => rw [Expr.leaves, Expr.leavesAll_eq_flatMap, List.flatMap_cons]
  | _ => simp [Expr.leaves]

namespace Node

/-! ### The leaves of nodes -/

/-- The leaf that the tokens of an atom are, if they are one: its first name, or else its first
number. -/
def ownLeaves (n : Node) : List Leaf :=
  if n.rule = .atom then
    match n.token? .name with
    | some text => (Token.leaf? .name text).toList
    | none => ((n.token? .number).bind (Token.leaf? .number)).toList
  else []

/-- The leaves that reading takes up: those of the atoms that are reached from part to part. -/
def taken (n : Node) : List Leaf :=
  n.ownLeaves ++ n.parts.attach.flatMap fun m => m.1.taken
termination_by sizeOf n
decreasing_by exact (isPart_of_mem_parts m.2).smaller

/-- The leaves that reading takes up, from those of the parts. -/
theorem taken_eq (n : Node) : n.taken = n.ownLeaves ++ n.parts.flatMap taken := by
  conv_rhs => rw [← List.attach_map_subtype_val n.parts, List.flatMap_map]
  rw [taken]

/-- What the tokens of an atom spell has the leaf that they are. -/
theorem leaves_of_atomToken? {n : Node} {e : Expr} (hn : n.rule = .atom)
    (h : n.atomToken? = some (.ok e)) : e.leaves = n.ownLeaves := by
  unfold atomToken? at h
  rw [ownLeaves, if_pos hn]
  cases hname : n.token? .name with
  | some id =>
    rw [hname] at h
    cases h
    rfl
  | none =>
    rw [hname] at h
    cases hnumber : n.token? .number with
    | some text =>
      rw [hnumber] at h
      dsimp only at h
      split at h
      · next hliteral =>
        cases h
        simp [Token.leaf?, Expr.leaves, hliteral]
      · cases h
    | none =>
      rw [hnumber] at h
      dsimp only at h
      -- What is left are the keywords, which are no leaves.
      split at h
      · cases h
        rfl
      · split at h
        · cases h
          rfl
        · split at h
          · cases h
            rfl
          · cases h

/-- A node that is not spelled by tokens has no leaf of its own. -/
theorem ownLeaves_eq_nil {n : Node} (h : n.rule = .atom → n.atomToken? = none) :
    n.ownLeaves = [] := by
  rw [ownLeaves]
  split
  · next hrule =>
    have hnone := h hrule
    unfold atomToken? at hnone
    cases hname : n.token? .name with
    | some id =>
      rw [hname] at hnone
      cases hnone
    | none =>
      rw [hname] at hnone
      cases hnumber : n.token? .number with
      | some text =>
        rw [hnumber] at hnone
        dsimp only at hnone
        split at hnone <;> cases hnone
      | none => rfl
  · rfl

/-- If each node has the leaves of whatever it is read as, several nodes have those of what they are
read as. -/
theorem flatMap_leaves_of_readAs {ms : List Node} {es : List Expr}
    (hms : ∀ m ∈ ms, ∀ {e}, m.ReadAs e → e.leaves = m.taken) (h : List.Forall₂ ReadAs ms es) :
    es.flatMap Expr.leaves = ms.flatMap taken := by
  induction h with
  | nil => rfl
  | cons he _ ih =>
    obtain ⟨hm, hms⟩ := List.forall_mem_cons.1 hms
    rw [List.flatMap_cons, List.flatMap_cons, hm he, ih hms]

/-- An expression that is read has the leaves that reading takes up, in their order. -/
theorem leaves_of_readAs (n : Node) : ∀ {e : Expr}, n.ReadAs e → e.leaves = n.taken := by
  refine induction_on_parts (P := fun n => ∀ {e : Expr}, n.ReadAs e → e.leaves = n.taken)
    (fun n ih e h => ?_) n
  cases made_of_readAs h with
  | spelled hrule hatom =>
    rw [taken_eq, parts_of_spelled hrule hatom, leaves_of_atomToken? hrule hatom, List.flatMap_nil,
      List.append_nil]
  | composed hrule hparts hmakes =>
    rw [hmakes.leaves_eq, flatMap_leaves_of_readAs ih hparts, taken_eq, ownLeaves_eq_nil hrule,
      List.nil_append]

end Node

end ScopeScript
