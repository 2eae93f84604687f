import ScopeScript.Grammar.Phrase

/-!
# Leaves of a tree

The tokens below a node in their order, and what the text of the node owes to them. The text is
built level by level, each level leaving out what is blank and joining the rest, and yet comes to no
more than the inked leaves of the whole tree with one space between each two.

* `Node.text_eq_spaced_leaves`: the text of a node is its inked leaves, spaced.
* `Phrase.leaves_lift`: lifting adds no leaf.
* `Text.unspaced_spaced`: apart from its spaces, a spaced text is its parts.

Main statement:

* `Node.text_told_by_leaves`: the text of a node, of a lifted node, and of a node without ink, by
  the leaves.
-/

namespace ScopeScript

/-! ### Joined texts -/

namespace Text

/-- The texts that are not blank. -/
def inked (ts : List String) : List String :=
  ts.filter fun s => !isBlank s

/-- The texts that are not blank, with one space between each two. -/
def spaced (ts : List String) : String :=
  " ".intercalate (inked ts)

/-- The characters of a text other than the space. -/
def unspaced (s : String) : List Char :=
  s.toList.filter (· ≠ ' ')

/-- The inked texts of two lists. -/
@[simp]
theorem inked_append (ts us : List String) : inked (ts ++ us) = inked ts ++ inked us :=
  List.filter_append ..

/-- An inked text is not blank. -/
theorem isBlank_of_mem_inked {ts : List String} {s : String} (h : s ∈ inked ts) :
    isBlank s = false := by
  simpa using (List.mem_filter.1 h).2

/-- A joined text is blank only if nothing was joined. -/
theorem isBlank_intercalate {ts : List String} (hne : ts ≠ []) (h : ∀ s ∈ ts, isBlank s = false) :
    isBlank (" ".intercalate ts) = false := by
  cases ts with
  | nil => exact absurd rfl hne
  | cons t ts =>
    have ht := h t List.mem_cons_self
    cases ts with
    | nil => simpa using ht
    | cons u us => simp [ht]

/-- The inked texts of a spaced text: itself, unless nothing in it is inked. -/
theorem inked_spaced (ts : List String) :
    inked [spaced ts] = if inked ts = [] then [] else [spaced ts] := by
  by_cases h : inked ts = []
  · rw [if_pos h, spaced, h]
    rfl
  · have hs : isBlank (spaced ts) = false := isBlank_intercalate h fun _ => isBlank_of_mem_inked
    rw [if_neg h, inked, List.filter_cons_of_pos (by simp [hs]), List.filter_nil]

/-- Joining absorbs what was joined before in the same way. -/
theorem spaced_append_spaced (ts us vs : List String) :
    spaced (ts ++ spaced us :: vs) = spaced (ts ++ us ++ vs) := by
  show " ".intercalate (inked _) = " ".intercalate (inked _)
  rw [List.append_cons, inked_append, inked_append, inked_spaced, inked_append, inked_append]
  -- A spaced text without ink is dropped as its parts are.
  split
  · next h => rw [h]
  · next h =>
    rw [spaced]
    -- The inner text is not empty, so a space stands wherever something precedes or follows it.
    generalize inked us = us at h
    generalize inked ts = ts
    generalize inked vs = vs
    by_cases hts : ts = [] <;> by_cases hvs : vs = [] <;>
      simp [hts, hvs, h, String.intercalate_append_of_ne_nil, String.intercalate_cons_of_ne_nil]

/-- A spaced text is empty exactly when nothing in it is inked. -/
theorem spaced_eq_empty_iff {ts : List String} :
    spaced ts = "" ↔ ∀ s ∈ ts, isBlank s = true := by
  constructor
  · intro h s hs
    apply Decidable.byContradiction
    intro hink
    have hmem : s ∈ inked ts := List.mem_filter.2 ⟨hs, by simpa using hink⟩
    -- A text with an inked part is not blank, as the empty text is.
    have hnot : isBlank (spaced ts) = false :=
      isBlank_intercalate (List.ne_nil_of_mem hmem) fun _ => isBlank_of_mem_inked
    rw [h, isBlank_empty] at hnot
    cases hnot
  · intro h
    have hnone : inked ts = [] := List.filter_eq_nil_iff.2 fun s hs => by simp [h s hs]
    rw [spaced, hnone]
    rfl

/-- A joined text without its spaces is its parts without theirs. -/
@[simp]
theorem unspaced_append (s t : String) : unspaced (s ++ t) = unspaced s ++ unspaced t := by
  simp [unspaced]

/-- Apart from its spaces, a spaced text is its inked parts. -/
theorem unspaced_spaced (ts : List String) :
    unspaced (spaced ts) = (inked ts).flatMap unspaced := by
  rw [spaced]
  induction inked ts with
  | nil => rfl
  | cons t ts ih =>
    cases ts with
    | nil => simp
    | cons u us =>
      have hspace : unspaced " " = [] := rfl
      rw [String.intercalate_cons_cons, unspaced_append, unspaced_append, ih, hspace,
        List.append_nil]
      rfl

end Text

/-! ### Leaves -/

mutual

/-- The texts of the tokens below a node, in order. -/
def Node.leaves : Node → List String
  | .mk _ is => Item.leavesAll is

/-- The texts of the tokens of an item: those below a child node, or the token's own. -/
def Item.leaves : Item → List String
  | .node n => Node.leaves n
  | .token _ s => [s]

/-- The texts of the tokens of several items, in order. -/
def Item.leavesAll : List Item → List String
  | [] => []
  | i :: is => Item.leaves i ++ Item.leavesAll is

end

/-- The leaves of several items are those of each. -/
theorem Item.leavesAll_eq_flatMap (is : List Item) :
    Item.leavesAll is = is.flatMap Item.leaves := by
  induction is with
  | nil => rfl
  | cons i is ih => rw [Item.leavesAll, ih, List.flatMap_cons]

mutual

/-- The text of a node is its inked leaves, spaced. -/
theorem Node.text_eq_spaced_leaves : ∀ n : Node, n.text = Text.spaced n.leaves
  | .mk _ is => Item.spaced_texts [] is

/-- The text of an item stands for the leaves of the item wherever it is joined. -/
theorem Item.spaced_append_text (ts us : List String) :
    ∀ i : Item, Text.spaced (ts ++ i.text :: us) = Text.spaced (ts ++ i.leaves ++ us)
  | .node n => by
    rw [Item.text, n.text_eq_spaced_leaves, Text.spaced_append_spaced]
    rfl
  | .token _ s => by
    rw [List.append_cons]
    rfl

/-- The texts of several items stand for their leaves, after whatever they are joined to. -/
theorem Item.spaced_texts (ts : List String) :
    ∀ is : List Item, Text.spaced (ts ++ Item.texts is) = Text.spaced (ts ++ Item.leavesAll is)
  | [] => rfl
  | i :: is => by
    rw [Item.texts, Item.spaced_append_text ts _ i, Item.spaced_texts (ts ++ i.leaves) is,
      List.append_assoc]
    rfl

end

namespace Phrase

/-- Lifting adds no leaf. -/
@[simp]
theorem leaves_lift (n : Node) (target : Rule) : (lift n target).leaves = n.leaves := by
  -- A parent around a single child has the leaves of the child.
  have hwrap : ∀ (rs : List Rule) (n : Node), (rs.foldl wrap n).leaves = n.leaves := by
    intro rs
    induction rs with
    | nil => exact fun _ => rfl
    | cons r rs ih =>
      intro n
      rw [List.foldl_cons, ih]
      exact List.append_nil n.leaves
  rw [lift]
  split
  · exact hwrap _ n
  · rfl

/-! ### Leaves of phrases -/

variable (n m k : Node) (ns : List Node) (op : Token)

/-- The nodes of a separated list with the token before each of them but the first. -/
theorem leavesAll_separated :
    Item.leavesAll (separated op (n :: ns)) =
      n.leaves ++ ns.flatMap fun m => op.spelling :: m.leaves := by
  rw [separated, Item.leavesAll, Item.leavesAll_eq_flatMap, List.flatMap_assoc]
  simp only [List.flatMap_cons, List.flatMap_nil, List.append_nil]
  rfl

/-- A group stands between parentheses. -/
@[simp]
theorem leaves_group : (group n).leaves = "(" :: (n.leaves ++ [")"]) := by
  simp [group, named, expr, Node.leaves, Item.leavesAll, Item.leaves, Item.fixed]
  exact ⟨rfl, rfl⟩

/-- A binary operator stands between its operands. -/
@[simp]
theorem leaves_binary (level : Rule) :
    (binary level n op m).leaves = n.leaves ++ op.spelling :: m.leaves := by
  simp [binary, Node.leaves, Item.leavesAll, Item.leaves, Item.fixed]

/-- A power, base first. -/
@[simp]
theorem leaves_power : (power n m).leaves = n.leaves ++ "**" :: m.leaves := by
  simp [power, Node.leaves, Item.leavesAll, Item.leaves, Item.fixed]
  rfl

/-- A sign stands before its operand. -/
@[simp]
theorem leaves_unary : (unary op n).leaves = op.spelling :: n.leaves := by
  simp [unary, Node.leaves, Item.leavesAll, Item.leaves, Item.fixed]

/-- A negation stands before its operand. -/
@[simp]
theorem leaves_negation : (negation n).leaves = "not" :: n.leaves := by
  simp [negation, Node.leaves, Item.leavesAll, Item.leaves, Item.fixed]
  rfl

/-- A comparison with a single link. -/
theorem leaves_comparison (r : Rule) :
    (comparison n [(r, m)]).leaves =
      n.leaves ++ r.linkTokens.map Token.spelling ++ m.leaves := by
  simp [comparison, link, Node.leaves, Item.leavesAll, Item.leaves, Item.fixed,
    Item.leavesAll_eq_flatMap, List.flatMap_map]
  exact List.map_eq_flatMap.symm

/-- A conjunction of at least one operand. -/
theorem leaves_conjunction :
    (conjunction (n :: ns)).leaves = n.leaves ++ ns.flatMap fun m => "and" :: m.leaves := by
  rw [conjunction, Node.leaves, List.map_cons, leavesAll_separated, leaves_lift, List.flatMap_map]
  simp only [leaves_lift]
  rfl

/-- A disjunction of at least one operand. -/
theorem leaves_disjunction :
    (disjunction (n :: ns)).leaves = n.leaves ++ ns.flatMap fun m => "or" :: m.leaves := by
  rw [disjunction, Node.leaves, List.map_cons, leavesAll_separated, leaves_lift, List.flatMap_map]
  simp only [leaves_lift]
  rfl

/-- A choice, with its condition between the keywords. -/
@[simp]
theorem leaves_ternary :
    (ternary n m k).leaves = n.leaves ++ "if" :: (m.leaves ++ "else" :: k.leaves) := by
  simp [ternary, expr, Node.leaves, Item.leavesAll, Item.leaves, Item.fixed]
  exact ⟨rfl, rfl⟩

/-- A call, with a comma between each two of its arguments. -/
@[simp]
theorem leaves_call :
    (call n ns).leaves =
      n.leaves ++ "(" :: (Item.leavesAll (separated .comma (ns.map expr)) ++ [")"]) := by
  have hargs : Item.leavesAll (callArguments ns) =
      Item.leavesAll (separated .comma (ns.map expr)) := by
    cases ns <;> simp [callArguments, separated, Item.leavesAll, Item.leaves, Node.leaves]
  rw [Item.leavesAll_eq_flatMap] at hargs
  simp [call, Node.leaves, Item.leavesAll_eq_flatMap, Item.leaves, Item.fixed, hargs]
  exact ⟨rfl, rfl⟩

end Phrase

/-- The text of a node is the texts of the tokens below it from left to right, less those that are
only white space, with one space between each two. A node is therefore lifted without a change to
its text, and its text is empty exactly when every token below it is blank. -/
theorem Node.text_told_by_leaves (n : Node) :
    n.text = " ".intercalate (n.leaves.filter fun s => !Text.isBlank s) ∧
    (∀ target : Rule, (Phrase.lift n target).text = n.text) ∧
    (n.text = "" ↔ ∀ s ∈ n.leaves, Text.isBlank s = true) := by
  refine ⟨n.text_eq_spaced_leaves, ?_, ?_⟩
  · intro target
    rw [text_eq_spaced_leaves, Phrase.leaves_lift, ← text_eq_spaced_leaves]
  · rw [text_eq_spaced_leaves]
    exact Text.spaced_eq_empty_iff

end ScopeScript
