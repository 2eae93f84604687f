import Mathlib.Data.List.Forall2
import ScopeScript.Proofs.Phrase.Sketch

/-!
# The parts that reading takes up

Reading a node takes up the parts that its production asks for and passes over whatever else the
node holds. What is read is made of what the parts are read as, by the production alone; only an
atom may be spelled by its own tokens instead. Between two links of a comparison an operand is
repeated.

* `Node.parts`: the parts of a node that its production asks for.
* `Node.induction_on_parts`: what a node has from its parts holds of every node.
* `Rule.Makes`: what a production makes of the expressions of its parts.
* `Node.Made`: how a node comes to stand for an expression.

Main statement:

* `Node.made_of_readAs`: whatever a node is read as is made of what its parts are read as.
-/

namespace ScopeScript

/-- The operands of the links of a chain as the chain repeats them: each but the last twice, on the
right of its own link and on the left of the next. -/
def Expr.linked {α : Type} : List α → List α
  | [] => []
  | [a] => [a]
  | a :: b :: rest => a :: a :: linked (b :: rest)

/-- The linked operands are the operands. -/
theorem Expr.mem_linked_iff {α : Type} {a : α} : ∀ {as : List α}, a ∈ linked as ↔ a ∈ as
  | [] | [_] => Iff.rfl
  | b :: c :: rest => by
    rw [linked, List.mem_cons, List.mem_cons, mem_linked_iff, List.mem_cons (b := b)]
    tauto

/-- Whether a production may be read as an unpacking. -/
def Rule.starred : Rule → Bool
  | .starExpressions | .starExpression => true
  | _ => false

namespace Node

/-! ### Readings that succeed -/

section Results

variable {α β : Type} {n : Node}

/-- A sequence of two readings succeeds if the first does and then the second. -/
theorem bind_eq_ok {x : Except TreeError α} {f : α → Except TreeError β} {b : β} :
    (x >>= f) = .ok b ↔ ∃ a, x = .ok a ∧ f a = .ok b := by
  cases x with
  | error err => simp [bind, Except.bind]
  | ok a => simp [bind, Except.bind]

/-- What is made of a reading is there if the reading succeeds. -/
theorem map_eq_ok {x : Except TreeError α} {f : α → β} {b : β} :
    x.map f = .ok b ↔ ∃ a, x = .ok a ∧ f a = b := by
  cases x <;> simp [Except.map]

/-- A part that a node has to have is read if it is there and is read. -/
theorem need_eq_ok {r : Rule} {found : Option (Except TreeError α)} {a : α} :
    n.need r found = .ok a ↔ found = some (.ok a) := by
  cases found <;> simp [need]

/-- A part without which a node is left out is read if it is there and is read. -/
theorem supported_eq_ok {found : Option (Except TreeError α)} {a : α} :
    n.supported found = .ok a ↔ found = some (.ok a) := by
  cases found <;> simp [supported]

end Results

/-- Children that are read one after the other are each read as the result in its place. -/
theorem forall₂_of_mapM {α : Type} {read : Node → Except TreeError α} {ns : List Node}
    {as : List α} (h : ns.mapM read = .ok as) :
    List.Forall₂ (fun n a => read n = .ok a) ns as := by
  induction ns generalizing as with
  | nil =>
    cases h
    exact .nil
  | cons m ms ih =>
    rw [List.mapM_cons] at h
    obtain ⟨a, ha, h⟩ := bind_eq_ok.1 h
    obtain ⟨rest, hrest, h⟩ := bind_eq_ok.1 h
    cases h
    exact .cons ha (ih hrest)

/-- Members that are related to others have a property that each of these brings to what it is
related to. -/
theorem forall_mem_of_forall₂ {α β : Type} {R : α → β → Prop} {P : β → Prop} {as : List α}
    {bs : List β} (hP : ∀ a ∈ as, ∀ b, R a b → P b) (h : List.Forall₂ R as bs) :
    ∀ b ∈ bs, P b := by
  induction h with
  | nil => simp
  | cons hab _ ih =>
    obtain ⟨ha, has⟩ := List.forall_mem_cons.1 hP
    exact List.forall_mem_cons.2 ⟨ha _ hab, ih has⟩

/-- Children that are read one after the other are read each. -/
theorem forall_mem_of_mapM {α : Type} {read : Node → Except TreeError α} {ns : List Node}
    {as : List α} {P : α → Prop} (hP : ∀ m ∈ ns, ∀ a, read m = .ok a → P a)
    (h : ns.mapM read = .ok as) : ∀ a ∈ as, P a :=
  forall_mem_of_forall₂ hP (forall₂_of_mapM h)

/-! ### The parts of a node -/

/-- The part of a comparison link that holds its operand, told by the production that names the
operator. -/
def linkPart? (n : Node) : Option Node :=
  linkOperators.findSome? fun p => n.child? p.1 0

/-- The arguments of a call. -/
def argParts (n : Node) : List Node :=
  ((n.child? .arguments 0).bind (·.child? .args 0)).toList.flatMap (·.children .expression)

/-- The parts of a node that its production asks for, in the order in which they stand in the
expression. -/
def parts (n : Node) : List Node :=
  match n.rule with
  | .starExpressions => (n.child? .starExpression 0).toList
  | .starExpression => ((n.child? .expression 0).or (n.child? .bitwiseOr 0)).toList
  | .namedExpression => (n.child? .expression 0).toList
  | .expression =>
    match n.child? .disjunction 1 with
    | none => (n.child? .disjunction 0).toList
    | some condition =>
      (n.child? .disjunction 0).toList ++ condition :: (n.child? .expression 0).toList
  | .disjunction => n.children .conjunction
  | .conjunction => n.children .inversion
  | .inversion => ((n.child? .inversion 0).or (n.child? .comparison 0)).toList
  | .comparison =>
    (n.child? .bitwiseOr 0).toList ++
      Expr.linked ((n.children .compareOpBitwiseOrPair).filterMap linkPart?)
  | .eqBitwiseOr | .noteqBitwiseOr | .lteBitwiseOr | .ltBitwiseOr | .gteBitwiseOr | .gtBitwiseOr
  | .notinBitwiseOr | .inBitwiseOr | .isnotBitwiseOr | .isBitwiseOr =>
    (n.child? .bitwiseOr 0).toList
  | .bitwiseOr | .bitwiseXor | .bitwiseAnd | .shiftExpr | .sum | .term =>
    (n.child? n.rule 0).toList ++ (n.child? n.rule.rightOperand 0).toList
  | .factor => ((n.child? .power 0).or (n.child? .factor 0)).toList
  | .power => (n.child? .awaitPrimary 0).toList ++ (n.child? .factor 0).toList
  | .awaitPrimary => (n.child? .primary 0).toList
  | .primary =>
    match n.child? .primary 0 with
    | some callee => callee :: n.argParts
    | none => (n.child? .atom 0).toList
  | .atom => if n.atomToken?.isSome then [] else (n.child? .group 0).toList
  | .group => (n.child? .namedExpression 0).toList
  | _ => []

/-- What a part is to its node: it is smaller, and it is read as an unpacking only where the node
holds starred expressions. -/
structure IsPart (n m : Node) : Prop where
  /-- The part is smaller. -/
  smaller : sizeOf m < sizeOf n
  /-- Elsewhere than in starred expressions, the part is not starred. -/
  starred : m.rule.starred = true → n.rule = .starExpressions

section

variable {n m : Node} {r : Rule} {index : Nat}

/-- A child that is not starred is a part. -/
theorem isPart_of_mem_children (hr : r.starred = false) (h : m ∈ n.children r) : n.IsPart m where
  smaller := sizeOf_lt_of_mem_items (node_mem_of_mem_children h)
  starred hstarred := by
    rw [rule_of_mem_children h, hr] at hstarred
    cases hstarred

/-- A child that is not starred, found by its position, is a part. -/
theorem isPart_of_child? (hr : r.starred = false) (h : n.child? r index = some m) : n.IsPart m :=
  isPart_of_mem_children hr (List.mem_of_getElem? h)

/-- A part of a child is a part, if it is not starred. -/
theorem IsPart.of_child {c : Node} (h : c.IsPart m) (hm : m.rule.starred = false)
    (hc : .node c ∈ n.items) : n.IsPart m where
  smaller := Nat.lt_trans h.smaller (sizeOf_lt_of_mem_items hc)
  starred hstarred := by
    rw [hm] at hstarred
    cases hstarred

/-- The operand of a link is a part of it, and it is not starred. -/
theorem isPart_of_linkPart? (h : n.linkPart? = some m) : n.IsPart m ∧ m.rule.starred = false := by
  obtain ⟨p, hp, hchild⟩ := List.exists_of_findSome?_eq_some h
  have hall : ∀ q ∈ linkOperators, q.1.starred = false := by decide
  refine ⟨isPart_of_child? (hall p hp) hchild, ?_⟩
  rw [rule_of_child? hchild]
  exact hall p hp

/-- An argument is a part. -/
theorem isPart_of_mem_argParts (h : m ∈ n.argParts) : n.IsPart m := by
  obtain ⟨args, hargs, hm⟩ := List.mem_flatMap.1 h
  obtain ⟨arguments, harguments, hargs⟩ := Option.bind_eq_some_iff.1 (Option.mem_toList.1 hargs)
  have hstarred : m.rule.starred = false := by
    rw [rule_of_mem_children hm]
    rfl
  have hpart : args.IsPart m := isPart_of_mem_children rfl hm
  exact (hpart.of_child hstarred (node_mem_of_child? hargs)).of_child hstarred
    (node_mem_of_child? harguments)

/-- A member of the parts is a part. -/
theorem isPart_of_mem_parts (h : m ∈ n.parts) : n.IsPart m := by
  have hfound : ∀ {r index}, r.starred = false → m ∈ (n.child? r index).toList → n.IsPart m :=
    fun hr hm => isPart_of_child? hr (Option.mem_toList.1 hm)
  have heither : ∀ {r s}, r.starred = false → s.starred = false →
      m ∈ ((n.child? r 0).or (n.child? s 0)).toList → n.IsPart m := by
    intro r s hr hs hm
    rcases Option.or_eq_some_iff.1 (Option.mem_toList.1 hm) with hm | ⟨-, hm⟩
    · exact isPart_of_child? hr hm
    · exact isPart_of_child? hs hm
  cases hrule : n.rule with
  | starExpressions =>
    simp only [parts, hrule] at h
    have hchild := node_mem_of_child? (Option.mem_toList.1 h)
    exact ⟨sizeOf_lt_of_mem_items hchild, fun _ => hrule⟩
  | expression =>
    simp only [parts, hrule] at h
    split at h
    · exact hfound rfl h
    · next condition hcondition =>
      rcases List.mem_append.1 h with h | h
      · exact hfound rfl h
      · rcases List.mem_cons.1 h with rfl | h
        · exact isPart_of_child? rfl hcondition
        · exact hfound rfl h
  | disjunction | conjunction =>
    simp only [parts, hrule] at h
    exact isPart_of_mem_children rfl h
  | starExpression | inversion | factor =>
    simp only [parts, hrule] at h
    exact heither rfl rfl h
  | comparison =>
    simp only [parts, hrule] at h
    rcases List.mem_append.1 h with h | h
    · exact hfound rfl h
    · obtain ⟨link, hlink, hpart⟩ := List.mem_filterMap.1 (Expr.mem_linked_iff.1 h)
      obtain ⟨hpart, hstarred⟩ := isPart_of_linkPart? hpart
      exact hpart.of_child hstarred (node_mem_of_mem_children hlink)
  | bitwiseOr | bitwiseXor | bitwiseAnd | shiftExpr | sum | term | power =>
    simp only [parts, hrule] at h
    rcases List.mem_append.1 h with h | h <;> exact hfound rfl h
  | primary =>
    simp only [parts, hrule] at h
    split at h
    · next callee hcallee =>
      rcases List.mem_cons.1 h with rfl | h
      · exact isPart_of_child? rfl hcallee
      · exact isPart_of_mem_argParts h
    · exact hfound rfl h
  | atom =>
    simp only [parts, hrule] at h
    split at h
    · cases h
    · exact hfound rfl h
  | namedExpression | eqBitwiseOr | noteqBitwiseOr | lteBitwiseOr | ltBitwiseOr | gteBitwiseOr
  | gtBitwiseOr | notinBitwiseOr | inBitwiseOr | isnotBitwiseOr | isBitwiseOr | awaitPrimary
  | group =>
    simp only [parts, hrule] at h
    exact hfound rfl h
  | _ =>
    simp only [parts, hrule] at h
    cases h

end

/-- A property of all nodes, proved of each from its parts. -/
theorem induction_on_parts {P : Node → Prop} (h : ∀ n, (∀ m ∈ n.parts, P m) → P n) (n : Node) :
    P n :=
  h n fun m _ => induction_on_parts h m
termination_by sizeOf n
decreasing_by exact (isPart_of_mem_parts ‹_›).smaller

/-! ### What the parts are read as -/

/-- The node is read as the expression. -/
def ReadAs (n : Node) (e : Expr) : Prop :=
  n.toExpr = .ok e

section

variable {n : Node} {r s : Rule} {index : Nat} {e : Expr}

/-- A child that is there is read. -/
theorem readAs_child? (h : (n.child? r index).map toExpr = some (.ok e)) :
    List.Forall₂ ReadAs (n.child? r index).toList [e] := by
  obtain ⟨m, hm, he⟩ := Option.map_eq_some_iff.1 h
  rw [hm]
  exact .cons he .nil

/-- A child that is not there is not read. -/
theorem readAs_absent (h : (n.child? r index).map toExpr = none) :
    List.Forall₂ ReadAs (n.child? r index).toList [] := by
  rw [Option.map_eq_none_iff.1 h]
  exact .nil

/-- Of two children, the first is read if it is there. -/
theorem readAs_or_left (h : (n.child? r 0).map toExpr = some (.ok e)) :
    List.Forall₂ ReadAs ((n.child? r 0).or (n.child? s 0)).toList [e] := by
  obtain ⟨m, hm, he⟩ := Option.map_eq_some_iff.1 h
  rw [hm]
  exact .cons he .nil

/-- Of two children, the second is read if the first is not there. -/
theorem readAs_or_right (hnone : (n.child? r 0).map toExpr = none)
    (h : (n.child? s 0).map toExpr = some (.ok e)) :
    List.Forall₂ ReadAs ((n.child? r 0).or (n.child? s 0)).toList [e] := by
  rw [Option.map_eq_none_iff.1 hnone, Option.none_or]
  exact readAs_child? h

/-- A link has one of the comparison operators and what the child that goes with it is read as. -/
theorem exists_of_toLink {rule : Rule} {items : List Item} {link : BinaryOp × Expr}
    (h : (mk rule items).toLink = .ok link) :
    ∃ p ∈ linkOperators, ∃ e, exprAt p.1 0 items = some (.ok e) ∧ (p.2, e) = link := by
  rw [toLink] at h
  obtain ⟨p, hp, hfound⟩ := List.exists_of_findSome?_eq_some (supported_eq_ok.1 h)
  obtain ⟨found, hat, hmap⟩ := Option.map_eq_some_iff.1 hfound
  obtain ⟨e, rfl, hlink⟩ := map_eq_ok.1 hmap
  exact ⟨p, hp, e, hat, hlink⟩

/-- A link is read as an operator and what its part is read as. -/
theorem readAs_of_toLink {link : BinaryOp × Expr} (h : n.toLink = .ok link) :
    ∃ m, n.linkPart? = some m ∧ m.ReadAs link.2 := by
  have hexprAt : ∀ r index, exprAt r index n.items = (n.child? r index).map toExpr :=
    exprAt_items n
  obtain ⟨rule, items⟩ := n
  rw [toLink] at h
  have hfound := supported_eq_ok.1 h
  simp only [items_mk] at hexprAt
  simp only [hexprAt] at hfound
  rw [linkPart?]
  -- The search for a part and the search for what it is read as stop at the same production.
  generalize linkOperators = ps at hfound
  induction ps with
  | nil => cases hfound
  | cons p ps ih =>
    rw [List.findSome?_cons] at hfound ⊢
    cases hchild : (mk rule items).child? p.1 0 with
    | none =>
      rw [hchild] at hfound
      exact ih hfound
    | some m =>
      rw [hchild] at hfound
      obtain ⟨e, he, rfl⟩ := map_eq_ok.1 (Option.some.inj hfound)
      exact ⟨m, rfl, he⟩

/-- The links of a comparison are read as operators and what their parts are read as. -/
theorem readAs_linkParts {ms : List Node} {links : List (BinaryOp × Expr)}
    (h : List.Forall₂ (fun m link => m.toLink = .ok link) ms links) :
    List.Forall₂ ReadAs (ms.filterMap linkPart?) (links.map Prod.snd) := by
  induction h with
  | nil => exact .nil
  | cons hlink _ ih =>
    obtain ⟨m, hm, hread⟩ := readAs_of_toLink hlink
    rw [List.filterMap_cons_some hm, List.map_cons]
    exact .cons hread ih

/-- Operands that a chain repeats are read as expressions that it repeats. -/
theorem readAs_linked : ∀ {ms : List Node} {es : List Expr}, List.Forall₂ ReadAs ms es →
    List.Forall₂ ReadAs (Expr.linked ms) (Expr.linked es)
  | _, _, .nil => .nil
  | _, _, .cons h .nil => .cons h .nil
  | _, _, .cons h (.cons h' hs) => .cons h (.cons h (readAs_linked (.cons h' hs)))

/-- The arguments of a call that has any. -/
theorem readAs_argParts {es : List Expr} (h : (n.child? .arguments 0).map toArgs = some (.ok es)) :
    List.Forall₂ ReadAs n.argParts es := by
  obtain ⟨⟨_, items⟩, harguments, h⟩ := Option.map_eq_some_iff.1 h
  obtain rfl := rule_of_child? harguments
  have hargsAt := argsAt_items (mk .arguments items) .args
  rw [items_mk] at hargsAt
  simp only [toArgs, hargsAt] at h
  obtain ⟨⟨_, items'⟩, hargs, h⟩ := Option.map_eq_some_iff.1 (need_eq_ok.1 h)
  obtain rfl := rule_of_child? hargs
  have hexprsAt := exprsAt_items (mk .args items') .expression
  rw [items_mk] at hexprsAt
  simp only [toArgs, hexprsAt] at h
  have hparts : n.argParts = (mk .args items').children .expression := by
    simp [argParts, harguments, hargs]
  rw [hparts]
  split at h
  · cases h
  · exact forall₂_of_mapM h

end

end Node

/-! ### What a node is made of -/

/-- What a production makes of the expressions of its parts. -/
inductive Rule.Makes : Rule → List Expr → Expr → Prop where
  /-- A part that stands for the node. -/
  | passed {r : Rule} {e : Expr} : Makes r [e] e
  /-- An unpacking. -/
  | unpacked {a : Expr} : Makes .starExpression [a] (.unary .star a)
  /-- A choice by a condition. -/
  | choice {b c o : Expr} : Makes .expression [b, c, o] (.ternary b c o)
  /-- Operands of `or`. -/
  | disjoined {e : Expr} {es : List Expr} :
    Makes .disjunction (e :: es) (es.foldl (.binary .or) e)
  /-- Operands of `and`. -/
  | conjoined {e : Expr} {es : List Expr} :
    Makes .conjunction (e :: es) (es.foldl (.binary .and) e)
  /-- A negation. -/
  | negated {a : Expr} : Makes .inversion [a] (.unary .not a)
  /-- The operands of a comparison. -/
  | chained {first : Expr} {links : List (BinaryOp × Expr)} :
    Makes .comparison (first :: Expr.linked (links.map Prod.snd)) (first.chain links)
  /-- The operands at a left-recursive level. -/
  | operated {r : Rule} {op : BinaryOp} {a b : Expr} (h : r.isLeftRecursive = true) :
    Makes r [a, b] (.binary op a b)
  /-- A sign or a complement. -/
  | signed {op : UnaryOp} {a : Expr} (hop : op ≠ .star) : Makes .factor [a] (.unary op a)
  /-- A base and an exponent. -/
  | raised {a b : Expr} : Makes .power [a, b] (.binary .pow a b)
  /-- A callee and its arguments. -/
  | called {f : Expr} {as : List Expr} : Makes .primary (f :: as) (.call f as)

namespace Node

/-- How a node comes to stand for an expression. -/
inductive Made (n : Node) : Expr → Prop where
  /-- The tokens of an atom spell it. -/
  | spelled {e : Expr} (hrule : n.rule = .atom) (h : n.atomToken? = some (.ok e)) : Made n e
  /-- It is made of what the parts are read as, and no tokens spell it. -/
  | composed {es : List Expr} {e : Expr} (hrule : n.rule = .atom → n.atomToken? = none)
    (hparts : List.Forall₂ ReadAs n.parts es) (h : n.rule.Makes es e) : Made n e

/-- An atom that its tokens spell has no parts. -/
theorem parts_of_spelled {n : Node} {e : Expr} (hrule : n.rule = .atom)
    (h : n.atomToken? = some (.ok e)) : n.parts = [] := by
  simp [parts, hrule, h]

/-- No sign unpacks. -/
theorem signOperator_ne_star (n : Node) : n.signOperator ≠ .star := by
  unfold signOperator
  split
  · exact UnaryOp.noConfusion
  · split <;> exact UnaryOp.noConfusion

/-- Operands that are read one after the other and joined. -/
theorem exists_of_joined {n : Node} {operand : Rule} {op : BinaryOp} {e : Expr}
    (h : n.joined operand op ((n.children operand).mapM toExpr) = .ok e) :
    ∃ a as, List.Forall₂ ReadAs (n.children operand) (a :: as) ∧
      e = as.foldl (.binary op) a := by
  obtain ⟨es, hes, hjoin⟩ := bind_eq_ok.1 h
  cases es with
  | nil => cases hjoin
  | cons a as =>
    cases hjoin
    exact ⟨a, as, forall₂_of_mapM hes, rfl⟩

/-- A choice by a condition, or an expression that stands for the node if there is none. -/
theorem made_of_expression {items : List Item} {e : Expr}
    (h : (mk .expression items).toExpr = .ok e) : (mk .expression items).Made e := by
  have hexprAt := exprAt_items (mk .expression items)
  simp only [items_mk] at hexprAt
  simp only [toExpr, hexprAt] at h
  split at h
  · cases h
  · obtain ⟨body, hbody, h⟩ := bind_eq_ok.1 h
    have hbody := readAs_child? (need_eq_ok.1 hbody)
    split at h
    · next hnone =>
      cases h
      refine .composed nofun ?_ .passed
      simpa only [parts, rule_mk, Option.map_eq_none_iff.1 hnone] using hbody
    · next found hfound =>
      obtain ⟨m, hm, rfl⟩ := Option.map_eq_some_iff.1 hfound
      obtain ⟨condition, hcondition, h⟩ := bind_eq_ok.1 h
      obtain ⟨orelse, horelse, h⟩ := bind_eq_ok.1 h
      cases h
      have horelse := readAs_child? (need_eq_ok.1 horelse)
      refine .composed nofun ?_ .choice
      simp only [parts, rule_mk, hm]
      exact List.rel_append hbody (.cons hcondition horelse)

/-- A call, or an atom that stands for the node if there is none. -/
theorem made_of_primary {items : List Item} {e : Expr}
    (h : (mk .primary items).toExpr = .ok e) : (mk .primary items).Made e := by
  have hexprAt := exprAt_items (mk .primary items)
  have hargsAt := argsAt_items (mk .primary items)
  simp only [items_mk] at hexprAt hargsAt
  simp only [toExpr, hexprAt, hargsAt] at h
  split at h
  · next hnone =>
    have hatom := readAs_child? (need_eq_ok.1 h)
    refine .composed nofun ?_ .passed
    simpa only [parts, rule_mk, Option.map_eq_none_iff.1 hnone] using hatom
  · next found hfound =>
    obtain ⟨m, hm, rfl⟩ := Option.map_eq_some_iff.1 hfound
    split at h
    · cases h
    · obtain ⟨callee, hcallee, h⟩ := bind_eq_ok.1 h
      split at h
      · next hnone =>
        cases h
        refine .composed nofun ?_ .called
        simp only [parts, rule_mk, hm, argParts, Option.map_eq_none_iff.1 hnone]
        exact .cons hcallee .nil
      · next args hargs =>
        obtain ⟨as, rfl, h⟩ := bind_eq_ok.1 h
        cases h
        refine .composed nofun ?_ .called
        simp only [parts, rule_mk, hm]
        exact .cons hcallee (readAs_argParts hargs)

/-- Whatever a node is read as is spelled by its tokens or made of what its parts are read as. -/
theorem made_of_readAs {n : Node} {e : Expr} (h : n.ReadAs e) : n.Made e := by
  have hexprAt : ∀ r index, exprAt r index n.items = (n.child? r index).map toExpr :=
    exprAt_items n
  have hexprsAt : ∀ r, exprsAt r n.items = (n.children r).mapM toExpr := exprsAt_items n
  have hlinksAt := linksAt_items n
  rw [ReadAs] at h
  obtain ⟨rule, items⟩ := n
  simp only [items_mk] at hexprAt hexprsAt hlinksAt
  cases rule with
  | starExpressions | awaitPrimary =>
    simp only [toExpr, hexprAt] at h
    split at h
    · cases h
    · exact .composed nofun (readAs_child? (need_eq_ok.1 h)) .passed
  | starExpression =>
    simp only [toExpr, hexprAt] at h
    split at h
    · next found hfound =>
      subst h
      exact .composed nofun (readAs_or_left hfound) .passed
    · next hnone =>
      obtain ⟨found, hfound, hmap⟩ := Option.map_eq_some_iff.1 (supported_eq_ok.1 h)
      obtain ⟨a, rfl, rfl⟩ := map_eq_ok.1 hmap
      exact .composed nofun (readAs_or_right hnone hfound) .unpacked
  | namedExpression | group =>
    simp only [toExpr, hexprAt] at h
    exact .composed nofun (readAs_child? (supported_eq_ok.1 h)) .passed
  | expression => exact made_of_expression h
  | disjunction =>
    simp only [toExpr, hexprsAt] at h
    obtain ⟨a, as, hoperands, rfl⟩ := exists_of_joined h
    exact .composed nofun hoperands .disjoined
  | conjunction =>
    simp only [toExpr, hexprsAt] at h
    obtain ⟨a, as, hoperands, rfl⟩ := exists_of_joined h
    exact .composed nofun hoperands .conjoined
  | inversion =>
    simp only [toExpr, hexprAt] at h
    split at h
    · next found hfound =>
      obtain ⟨a, rfl, rfl⟩ := map_eq_ok.1 h
      exact .composed nofun (readAs_or_left hfound) .negated
    · next hnone =>
      exact .composed nofun (readAs_or_right hnone (need_eq_ok.1 h)) .passed
  | comparison =>
    simp only [toExpr, hexprAt, hlinksAt] at h
    obtain ⟨first, hfirst, h⟩ := bind_eq_ok.1 h
    obtain ⟨links, hlinks, h⟩ := bind_eq_ok.1 h
    cases h
    have hoperands := readAs_linked (readAs_linkParts (forall₂_of_mapM hlinks))
    exact .composed nofun (List.rel_append (readAs_child? (need_eq_ok.1 hfirst)) hoperands) .chained
  | eqBitwiseOr | noteqBitwiseOr | lteBitwiseOr | ltBitwiseOr | gteBitwiseOr | gtBitwiseOr
  | notinBitwiseOr | inBitwiseOr | isnotBitwiseOr | isBitwiseOr =>
    simp only [toExpr, hexprAt] at h
    exact .composed nofun (readAs_child? (need_eq_ok.1 h)) .passed
  | bitwiseOr | bitwiseXor | bitwiseAnd | shiftExpr | sum | term =>
    -- Without a left operand, the node is lifted and stands for its right operand.
    simp only [toExpr, hexprAt] at h
    obtain ⟨b, hb, h⟩ := bind_eq_ok.1 h
    have hrhs := readAs_child? (need_eq_ok.1 hb)
    split at h
    · next hnone =>
      cases h
      exact .composed nofun (List.rel_append (readAs_absent hnone) hrhs) .passed
    · next found hfound =>
      obtain ⟨a, rfl, h⟩ := bind_eq_ok.1 h
      cases h
      exact .composed nofun (List.rel_append (readAs_child? hfound) hrhs) (.operated rfl)
  | factor =>
    simp only [toExpr, hexprAt] at h
    split at h
    · next found hfound =>
      subst h
      exact .composed nofun (readAs_or_left hfound) .passed
    · next hnone =>
      obtain ⟨a, ha, rfl⟩ := map_eq_ok.1 h
      exact .composed nofun (readAs_or_right hnone (need_eq_ok.1 ha))
        (.signed (signOperator_ne_star _))
  | power =>
    simp only [toExpr, hexprAt] at h
    obtain ⟨base, hbase, h⟩ := bind_eq_ok.1 h
    have hbase := readAs_child? (need_eq_ok.1 hbase)
    split at h
    · next hnone =>
      cases h
      exact .composed nofun (List.rel_append hbase (readAs_absent hnone)) .passed
    · next found hfound =>
      obtain ⟨exponent, rfl, h⟩ := bind_eq_ok.1 h
      cases h
      exact .composed nofun (List.rel_append hbase (readAs_child? hfound)) .raised
  | primary => exact made_of_primary h
  | atom =>
    simp only [toExpr, hexprAt] at h
    split at h
    · next found hfound =>
      subst h
      exact .spelled rfl hfound
    · next hnone =>
      have hgroup := readAs_child? (supported_eq_ok.1 h)
      refine .composed (fun _ => hnone) ?_ .passed
      simpa [parts, hnone] using hgroup
  | _ =>
    simp only [toExpr] at h
    cases h

end Node

end ScopeScript
