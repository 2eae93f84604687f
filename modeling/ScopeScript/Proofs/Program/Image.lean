import ScopeScript.Proofs.Program.Parts
import ScopeScript.Syntax.OfTree.Program

/-!
# The form of what is read from trees

Whatever parse tree a program is read from, the program has a form of its own: no integer is
negative; an unpacking is the whole of an assigned value, of a returned value or of an expression
statement; an assertion asserts something; an assignment brings a hint or a value; and a line of
several statements holds at least two, each of them simple.

* `Expr.Derivable`, `Expr.IsValue`, `Stmt.IsSimple`, `Stmt.Derivable`: the form, by structure.
* `Node.yields_toExpr`: an expression that is read has the form that its production yields.

Main statement:

* `Node.derivable_program`: every program that is read from a tree has the form.
-/

namespace ScopeScript

/-! ### The form -/

namespace Expr

mutual

/-- An expression in which no integer is negative and nothing is unpacked. -/
def Derivable : Expr → Prop
  | none | bool _ | name _ => True
  | int n => ¬ n < 0
  | unary op a => op ≠ .star ∧ a.Derivable
  | binary _ a b => a.Derivable ∧ b.Derivable
  | ternary b c o => b.Derivable ∧ c.Derivable ∧ o.Derivable
  | call f as => f.Derivable ∧ DerivableAll as

/-- Several expressions that are derivable. -/
def DerivableAll : List Expr → Prop
  | [] => True
  | e :: es => e.Derivable ∧ DerivableAll es

end

/-- Several expressions are derivable exactly when each is. -/
theorem derivableAll_iff {es : List Expr} : DerivableAll es ↔ ∀ e ∈ es, e.Derivable := by
  induction es with
  | nil => simp [DerivableAll]
  | cons e es ih => rw [DerivableAll, ih, List.forall_mem_cons]

/-- A value: a derivable expression, or the unpacking of one. -/
inductive IsValue : Expr → Prop where
  /-- An expression. -/
  | plain {e : Expr} (h : e.Derivable) : IsValue e
  /-- The unpacking of an expression. -/
  | unpacked {e : Expr} (h : e.Derivable) : IsValue (unary .star e)

end Expr

namespace Stmt

variable {δ : Type}

/-- A simple statement of derivable expressions and values. -/
def IsSimple : Stmt δ → Prop
  | .assign _ hint value =>
    (hint = none → value ≠ none) ∧ (∀ e ∈ hint, e.Derivable) ∧ ∀ e ∈ value, e.IsValue
  | .assert es => es ≠ [] ∧ ∀ e ∈ es, e.Derivable
  | .ret value => ∀ e ∈ value, e.IsValue
  | .expr e => e.IsValue
  | .pass => True
  | .cond _ _ _ | .funcDef _ _ _ _ | .simple _ => False

mutual

/-- A statement of derivable expressions and values, in which several statements on a line are
simple. -/
def Derivable : Stmt δ → Prop
  | .cond c b .none => c.Derivable ∧ DerivableAll b
  | .cond c b (.some o) => c.Derivable ∧ DerivableAll b ∧ DerivableAll o
  | .funcDef _ _ _ b => DerivableAll b
  | .simple ss => 2 ≤ ss.length ∧ ∀ s ∈ ss, s.IsSimple
  | .assign target hint value => IsSimple (.assign target hint value : Stmt δ)
  | .assert es => IsSimple (.assert es : Stmt δ)
  | .ret value => IsSimple (.ret value : Stmt δ)
  | .expr e => IsSimple (.expr e : Stmt δ)
  | .pass => True

/-- Several statements that are derivable. -/
def DerivableAll : List (Stmt δ) → Prop
  | [] => True
  | s :: ss => s.Derivable ∧ DerivableAll ss

end

/-- Several statements are derivable exactly when each is. -/
theorem derivableAll_iff {ss : List (Stmt δ)} : DerivableAll ss ↔ ∀ s ∈ ss, s.Derivable := by
  induction ss with
  | nil => simp [DerivableAll]
  | cons s ss ih => rw [DerivableAll, ih, List.forall_mem_cons]

/-- A simple statement is derivable by itself. -/
theorem IsSimple.derivable {s : Stmt δ} (h : s.IsSimple) : s.Derivable := by
  cases s with
  | cond | funcDef | simple => exact h.elim
  | _ =>
    rw [Derivable]
    exact h

end Stmt

/-! ### Expressions -/

/-- The form of what a node of a production is read as. -/
def Rule.Yields (r : Rule) (e : Expr) : Prop :=
  if r.starred then e.IsValue else e.Derivable

/-- Elsewhere than at starred expressions, an expression is yielded if it is derivable. -/
theorem Rule.yields_iff {r : Rule} {e : Expr} (h : r.starred = false) :
    r.Yields e ↔ e.Derivable := by
  rw [Yields, h, if_neg Bool.false_ne_true]

/-- A derivable expression is yielded by every production. -/
theorem Rule.yields_of_derivable {r : Rule} {e : Expr} (h : e.Derivable) : r.Yields e := by
  rw [Yields]
  split
  · exact .plain h
  · exact h

/-- What is yielded is a value. -/
theorem Rule.Yields.isValue {r : Rule} {e : Expr} (h : r.Yields e) : e.IsValue := by
  rw [Yields] at h
  split at h
  · exact h
  · exact .plain h

namespace Expr

/-- Derivable operands are derivable when joined. -/
theorem derivable_foldl_binary {op : BinaryOp} {e : Expr} {es : List Expr} (he : e.Derivable)
    (hes : ∀ a ∈ es, a.Derivable) : (es.foldl (binary op) e).Derivable :=
  List.foldlRecOn es (binary op) he fun _ hacc a ha => ⟨hacc, hes a ha⟩

/-- Further derivable links keep a chain derivable: each takes up the operand of the one before. -/
theorem derivable_chainFrom {links : List (BinaryOp × Expr)} (hlinks : ∀ l ∈ links, l.2.Derivable)
    {acc previous : Expr} (hacc : acc.Derivable) (hprevious : previous.Derivable) :
    (chainFrom acc previous links).Derivable := by
  induction links generalizing acc previous with
  | nil => exact hacc
  | cons l ls ih =>
    obtain ⟨hl, hls⟩ := List.forall_mem_cons.1 hlinks
    exact ih hls ⟨hacc, hprevious, hl⟩ hl

/-- A chain of derivable links is derivable. -/
theorem derivable_chain {first : Expr} {links : List (BinaryOp × Expr)} (hfirst : first.Derivable)
    (hlinks : ∀ l ∈ links, l.2.Derivable) : (first.chain links).Derivable := by
  cases links with
  | nil => exact hfirst
  | cons l ls =>
    obtain ⟨hl, hls⟩ := List.forall_mem_cons.1 hlinks
    exact derivable_chainFrom hls ⟨hfirst, hl⟩ hl

end Expr

/-- What a production makes of values has the form that it yields, if the values are derivable
wherever the production is not one of starred expressions. -/
theorem Rule.Makes.yields {r : Rule} {es : List Expr} {e : Expr} (h : r.Makes es e)
    (hvalue : ∀ a ∈ es, a.IsValue) (hderivable : r ≠ .starExpressions → ∀ a ∈ es, a.Derivable) :
    r.Yields e := by
  by_cases hr : r = .starExpressions
  · subst hr
    cases h with
    | passed => exact hvalue e List.mem_cons_self
    | operated hlevel => cases hlevel
  · have hes := hderivable hr
    cases h with
    | passed => exact yields_of_derivable (hes e List.mem_cons_self)
    | unpacked => exact .unpacked (hes _ List.mem_cons_self)
    | choice =>
      rw [← Expr.derivableAll_iff] at hes
      obtain ⟨hb, hc, ho, -⟩ := hes
      exact ⟨hb, hc, ho⟩
    | disjoined | conjoined =>
      obtain ⟨ha, has⟩ := List.forall_mem_cons.1 hes
      exact Expr.derivable_foldl_binary ha has
    | negated => exact ⟨UnaryOp.noConfusion, hes _ List.mem_cons_self⟩
    | chained =>
      obtain ⟨hfirst, hlinked⟩ := List.forall_mem_cons.1 hes
      refine Expr.derivable_chain hfirst fun l hl => hlinked _ ?_
      exact Expr.mem_linked_iff.2 (List.mem_map_of_mem hl)
    | operated _ | raised =>
      rw [← Expr.derivableAll_iff] at hes
      obtain ⟨ha, hb, -⟩ := hes
      exact yields_of_derivable ⟨ha, hb⟩
    | signed hop => exact ⟨hop, hes _ List.mem_cons_self⟩
    | called =>
      obtain ⟨hf, has⟩ := List.forall_mem_cons.1 hes
      exact ⟨hf, Expr.derivableAll_iff.2 has⟩

namespace Node

/-- A literal is never negative. -/
theorem not_neg_of_read? {text : String} {n : Int64} (h : Literal.read? text = some n) :
    ¬ n < 0 := by
  obtain ⟨-, -, hvalue⟩ := Literal.read?_eq_some_iff_tests.1 h
  rw [Int64.lt_iff_toInt_lt, Word.ofInt?_eq_some_iff.1 hvalue]
  exact Int.not_lt.2 (Int.natCast_nonneg _)

/-- The expression that an atom's tokens spell is derivable. -/
theorem derivable_of_atomToken? {n : Node} {e : Expr} (h : n.atomToken? = some (.ok e)) :
    e.Derivable := by
  unfold atomToken? at h
  split at h
  · cases h
    trivial
  · split at h
    · split at h
      · next hread =>
        cases h
        exact not_neg_of_read? hread
      · cases h
    · split at h
      · cases h
        trivial
      · split at h
        · cases h
          trivial
        · split at h
          · cases h
            trivial
          · cases h

/-- What a node is read as has the form that its production yields. -/
theorem yields_toExpr (n : Node) : ∀ {e : Expr}, n.toExpr = .ok e → n.rule.Yields e := by
  refine induction_on_parts (P := fun n => ∀ {e : Expr}, n.ReadAs e → n.rule.Yields e)
    (fun n ih e h => ?_) n
  cases made_of_readAs h with
  | spelled _ hatom => exact Rule.yields_of_derivable (derivable_of_atomToken? hatom)
  | composed _ hparts hmakes =>
    refine hmakes.yields ?_ fun hr => ?_
    · exact forall_mem_of_forall₂ (fun m hm a ha => (ih m hm ha).isValue) hparts
    · refine forall_mem_of_forall₂ (fun m hm a ha => ?_) hparts
      have hstarred : m.rule.starred = false :=
        Bool.eq_false_iff.2 fun hm' => hr ((isPart_of_mem_parts hm).starred hm')
      exact (Rule.yields_iff hstarred).1 (ih m hm ha)

/-! ### Simple statements -/

section Clauses

variable {δ : Type} {n : Node}

/-- The value among the children of a node is a value. -/
theorem value_of_value? {e : Expr} (h : n.value? = some (.ok e)) : e.IsValue := by
  obtain ⟨m, hm, hread⟩ := Option.map_eq_some_iff.1 h
  have hyields := yields_toExpr m hread
  rw [rule_of_child? hm] at hyields
  exact hyields

/-- A child that is an expression is derivable. -/
theorem derivable_of_child? {r : Rule} {index : Nat} {e : Expr} (hr : r.starred = false)
    (h : (n.child? r index).map toExpr = some (.ok e)) : e.Derivable := by
  obtain ⟨m, hm, hread⟩ := Option.map_eq_some_iff.1 h
  have hyields := yields_toExpr m hread
  rw [rule_of_child? hm] at hyields
  exact (Rule.yields_iff hr).1 hyields

/-- An assignment brings a hint or a value. -/
theorem isSimple_assignment {s : Stmt δ} (h : n.assignment = .ok s) : s.IsSimple := by
  unfold assignment at h
  split at h
  · obtain ⟨hint, hhint, h⟩ := bind_eq_ok.1 h
    have hderivable := derivable_of_child? rfl (need_eq_ok.1 hhint)
    split at h
    · cases h
      simpa [Stmt.IsSimple] using hderivable
    · obtain ⟨value, hvalue, h⟩ := bind_eq_ok.1 h
      cases h
      have hvalue := value_of_value? (supported_eq_ok.1 hvalue)
      simpa [Stmt.IsSimple] using ⟨hderivable, hvalue⟩
  · split at h
    · cases h
    · split at h
      · next targets value _ hfound =>
        obtain ⟨target, -, h⟩ := bind_eq_ok.1 h
        obtain ⟨v, rfl, h⟩ := bind_eq_ok.1 h
        cases h
        have hvalue := value_of_value? hfound
        simpa [Stmt.IsSimple] using hvalue
      · cases h

/-- A return brings a value or none. -/
theorem isSimple_returned {s : Stmt δ} (h : n.returned = .ok s) : s.IsSimple := by
  unfold returned at h
  split at h
  · cases h
    simp [Stmt.IsSimple]
  · next value hfound =>
    obtain ⟨v, rfl, rfl⟩ := map_eq_ok.1 h
    have hvalue := value_of_value? hfound
    simpa [Stmt.IsSimple] using hvalue

/-- An assertion asserts something. -/
theorem isSimple_asserted {s : Stmt δ} (h : n.asserted = .ok s) : s.IsSimple := by
  obtain ⟨es, hes, h⟩ := bind_eq_ok.1 h
  have hderivable : ∀ e ∈ es, e.Derivable := by
    refine forall_mem_of_mapM (fun m hm e he => ?_) hes
    have hyields := yields_toExpr m he
    rw [rule_of_mem_children hm] at hyields
    exact hyields
  split at h
  · cases h
  · next hne =>
    cases h
    exact ⟨hne, hderivable⟩

/-- What a simple statement is read as is simple. -/
theorem isSimple_simpleStmt {s : Stmt δ} (h : n.simpleStmt = .ok s) : s.IsSimple := by
  unfold simpleStmt at h
  split at h
  · exact isSimple_assignment h
  · split at h
    · exact isSimple_returned h
    · split at h
      · exact isSimple_asserted h
      · split at h
        · next value hfound =>
          obtain ⟨v, rfl, rfl⟩ := map_eq_ok.1 h
          exact value_of_value? hfound
        · split at h
          · cases h
            trivial
          · cases h

/-- The statements of one line are derivable if they are simple. -/
theorem derivable_grouped {ss : Except TreeError (List (Stmt δ))} {s : Stmt δ}
    (hss : ∀ l, ss = .ok l → ∀ t ∈ l, t.IsSimple) (h : grouped ss = .ok s) : s.Derivable := by
  obtain ⟨l, hl, h⟩ := bind_eq_ok.1 h
  have hall := hss l hl
  match l, hall, h with
  | [], _, h => cases h
  | [t], hall, h =>
    cases h
    exact (hall _ List.mem_cons_self).derivable
  | t :: u :: ts, hall, h =>
    cases h
    exact ⟨by simp, hall⟩

end Clauses

/-! ### Statements and blocks -/

/-- What a node of the production of a simple statement is read as is simple. -/
theorem isSimple_toStmt {n : Node} {s : Stmt Unit} (hr : n.rule = .simpleStmt)
    (h : n.toStmt = .ok s) : s.IsSimple := by
  obtain ⟨rule, items⟩ := n
  obtain rfl : rule = .simpleStmt := hr
  exact isSimple_simpleStmt (n := mk .simpleStmt items) h

/-- The simple statements among the children of a node are simple. -/
theorem isSimple_stmtsAt {items : List Item} {ss : List (Stmt Unit)}
    (h : stmtsAt .simpleStmt items = .ok ss) : ∀ s ∈ ss, s.IsSimple := by
  have hitems := stmtsAt_items (mk .simpleStmts items) .simpleStmt
  rw [items_mk, h] at hitems
  exact forall_mem_of_mapM
    (fun m hm s hs => isSimple_toStmt (rule_of_mem_children hm) hs) hitems.symm

mutual

/-- A statement that is read is derivable. -/
theorem derivable_toStmt : ∀ (n : Node) {s : Stmt Unit}, n.toStmt = .ok s → s.Derivable
  | mk rule items, s, h => by
    cases rule with
    | statement | compoundStmt =>
      simp only [toStmt] at h
      split at h
      · next found hfound =>
        subst h
        exact derivable_stmtAt items hfound
      · exact derivable_stmtAt items (supported_eq_ok.1 h)
    | simpleStmts =>
      simp only [toStmt] at h
      exact derivable_grouped (fun l hl => isSimple_stmtsAt hl) h
    | simpleStmt => exact (isSimple_toStmt rfl h).derivable
    | functionDef =>
      simp only [toStmt] at h
      split at h
      · cases h
      · exact derivable_stmtAt items (need_eq_ok.1 h)
    | functionDefRaw =>
      simp only [toStmt] at h
      split at h
      · cases h
      · obtain ⟨name, -, h⟩ := bind_eq_ok.1 h
        obtain ⟨params, -, h⟩ := bind_eq_ok.1 h
        obtain ⟨body, hbody, h⟩ := bind_eq_ok.1 h
        cases h
        exact derivable_blockAt items (need_eq_ok.1 hbody)
    | ifStmt | elifStmt =>
      simp only [toStmt] at h
      obtain ⟨condition, hcondition, h⟩ := bind_eq_ok.1 h
      obtain ⟨body, hbody, h⟩ := bind_eq_ok.1 h
      have hc := derivable_of_child? rfl (need_eq_ok.1 hcondition)
      have hb := derivable_blockAt items (need_eq_ok.1 hbody)
      -- The alternative is an `elif`, else the block of an `else`, else there is none.
      split at h
      · next found hfound =>
        obtain ⟨s', rfl, h⟩ := bind_eq_ok.1 h
        cases h
        exact ⟨hc, hb, derivable_stmtAt items hfound, trivial⟩
      · split at h
        · next found hfound =>
          obtain ⟨b, rfl, h⟩ := bind_eq_ok.1 h
          cases h
          exact ⟨hc, hb, derivable_blockAt items hfound⟩
        · cases h
          exact ⟨hc, hb⟩
    | _ => cases h

/-- A block that is read is derivable. -/
theorem derivable_toBlock : ∀ (n : Node) {b : Block Unit}, n.toBlock = .ok b →
    Stmt.DerivableAll b
  | mk rule items, b, h => by
    cases rule with
    | fileInput =>
      simp only [toBlock] at h
      split at h
      · next found hfound =>
        subst h
        exact derivable_blockAt items hfound
      · cases h
        trivial
    | statements =>
      simp only [toBlock] at h
      exact Stmt.derivableAll_iff.2 (derivable_stmtsAt items h)
    | block =>
      simp only [toBlock] at h
      split at h
      · next found hfound =>
        subst h
        exact derivable_blockAt items hfound
      · split at h
        · next found hfound =>
          obtain ⟨s, rfl, rfl⟩ := map_eq_ok.1 h
          exact ⟨derivable_stmtAt items hfound, trivial⟩
        · cases h
    | elseBlock =>
      simp only [toBlock] at h
      exact derivable_blockAt items (need_eq_ok.1 h)
    | _ => cases h

/-- The statement of a child is derivable. -/
theorem derivable_stmtAt : ∀ (items : List Item) {r : Rule} {s : Stmt Unit},
    stmtAt r items = some (.ok s) → s.Derivable
  | [], _, _, h => by cases h
  | .token _ _ :: rest, r, s, h => by
    simp only [stmtAt] at h
    exact derivable_stmtAt rest h
  | .node n :: rest, r, s, h => by
    simp only [stmtAt] at h
    split at h
    · exact derivable_toStmt n (Option.some.inj h)
    · exact derivable_stmtAt rest h

/-- The statements of the children of a production are derivable. -/
theorem derivable_stmtsAt : ∀ (items : List Item) {r : Rule} {ss : List (Stmt Unit)},
    stmtsAt r items = .ok ss → ∀ s ∈ ss, s.Derivable
  | [], _, _, h => by
    cases h
    simp
  | .token _ _ :: rest, r, ss, h => by
    simp only [stmtsAt] at h
    exact derivable_stmtsAt rest h
  | .node n :: rest, r, ss, h => by
    simp only [stmtsAt] at h
    split at h
    · obtain ⟨t, ht, h⟩ := bind_eq_ok.1 h
      obtain ⟨ts, hts, h⟩ := bind_eq_ok.1 h
      cases h
      exact List.forall_mem_cons.2 ⟨derivable_toStmt n ht, derivable_stmtsAt rest hts⟩
    · exact derivable_stmtsAt rest h

/-- The block of a child is derivable. -/
theorem derivable_blockAt : ∀ (items : List Item) {r : Rule} {b : Block Unit},
    blockAt r items = some (.ok b) → Stmt.DerivableAll b
  | [], _, _, h => by cases h
  | .token _ _ :: rest, r, b, h => by
    simp only [blockAt] at h
    exact derivable_blockAt rest h
  | .node n :: rest, r, b, h => by
    simp only [blockAt] at h
    split at h
    · exact derivable_toBlock n (Option.some.inj h)
    · exact derivable_blockAt rest h

end

/-- Every program that is read from a tree is derivable. -/
theorem derivable_program {n : Node} {b : Block Unit} (h : n.program = .ok b) :
    Stmt.DerivableAll b := by
  rw [program] at h
  split at h
  · exact derivable_toBlock n h
  · cases h

end Node

end ScopeScript
