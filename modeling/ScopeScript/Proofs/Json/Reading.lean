import ScopeScript.Proofs.Json.Lexemes

/-!
# The reader of JSON and its grammar

The reader accepts what the grammar derives. A value that begins where one is expected is complete
where it ends, whatever containers are open around it and however deep it is nested itself.

* `outcome_value`, `outcome_element`: a value is read where one is expected, without and with white
  space around it.
* `outcome_elements`, `outcome_members`: the elements of an array and the members of an object are
  read up to the bracket that closes them.

Main statement:

* `read?_of_element`: a text is read as the document that it holds by the grammar.
-/

namespace ScopeScript.Json

namespace Grammar

variable {stack : List Container} {e : Expect} {cs rest : List Char}

/-- Whether a value may begin. -/
def TakesValue (e : Expect) : Prop :=
  e = .value ∨ e = .valueOrEnd

/-- Where a value may begin, its first lexeme is read as such: no value begins with a closing
bracket. -/
theorem feed_of_takesValue (he : TakesValue e) {l : Lexeme} (hl : l ≠ .closeBracket) :
    Pending.feed ⟨stack, e⟩ l = Pending.value stack l := by
  rcases he with rfl | rfl
  · rfl
  · unfold Pending.feed
    split <;> simp_all

/-- A value of one lexeme is complete behind it. -/
theorem bind_feed_eq (he : TakesValue e) {l : Lexeme} {v : Json} (hl : l ≠ .closeBracket)
    (hv : Pending.value stack l = some ⟨stack, .after v⟩) :
    ((Pending.feed ⟨stack, e⟩ l).bind fun q => ReaderState.outcome ⟨.between, q⟩ rest) =
      ReaderState.outcome ⟨.between, ⟨stack, .after v⟩⟩ rest := by
  rw [feed_of_takesValue he hl, hv]
  rfl

/-- A character that is a lexeme by itself is fed to the open containers. -/
theorem outcome_of_fed {c : Char} {l : Lexeme} {p q : Pending}
    (hstep : Mode.between.step c = some ([l], .between)) (hfeed : p.feed l = some q) :
    ReaderState.outcome ⟨.between, p⟩ (c :: cs) = ReaderState.outcome ⟨.between, q⟩ cs := by
  rw [outcome_of_lexeme hstep, hfeed]
  rfl

/-- Where a value may begin, a bracket opens an array. -/
theorem outcome_openBracket (he : TakesValue e) :
    ReaderState.outcome ⟨.between, ⟨stack, e⟩⟩ ('[' :: cs) =
      ReaderState.outcome ⟨.between, ⟨.array [] :: stack, .valueOrEnd⟩⟩ cs :=
  outcome_of_fed rfl (feed_of_takesValue he (by simp))

/-- Where a value may begin, a brace opens an object. -/
theorem outcome_openBrace (he : TakesValue e) :
    ReaderState.outcome ⟨.between, ⟨stack, e⟩⟩ ('{' :: cs) =
      ReaderState.outcome ⟨.between, ⟨stack, .key [] true⟩⟩ cs :=
  outcome_of_fed rfl (feed_of_takesValue he (by simp))

/-- The letters of a word are read up to the last. -/
theorem outcome_word {l : Lexeme} {p : Pending} {ws : List Char} (hne : ws ≠ []) :
    ReaderState.outcome ⟨.word ws l, p⟩ (ws ++ rest) =
      (p.feed l).bind fun q => ReaderState.outcome ⟨.between, q⟩ rest := by
  induction ws with
  | nil => exact absurd rfl hne
  | cons c ws ih =>
    cases ws with
    | nil => exact outcome_of_lexeme (by simp [Mode.step])
    | cons d ws =>
      refine (outcome_of_silent ?_).trans (ih (List.cons_ne_nil d ws))
      simp [Mode.step]

mutual

/-- A value is read where one may begin, up to where it ends. -/
theorem outcome_value : ∀ {cs : List Char} {v : Json} {stack : List Container} {e : Expect}
    {rest : List Char}, Value cs v → TakesValue e → Stops rest →
    ReaderState.outcome ⟨.between, ⟨stack, e⟩⟩ (cs ++ rest) =
      ReaderState.outcome ⟨.between, ⟨stack, .after v⟩⟩ rest
  | _, _, stack, e, rest, .null, he, _ => by
    refine (outcome_of_silent rfl).trans ((outcome_word (List.cons_ne_nil _ _)).trans ?_)
    exact bind_feed_eq he (by simp) rfl
  | _, _, stack, e, rest, .true, he, _ => by
    refine (outcome_of_silent rfl).trans ((outcome_word (List.cons_ne_nil _ _)).trans ?_)
    exact bind_feed_eq he (by simp) rfl
  | _, _, stack, e, rest, .false, he, _ => by
    refine (outcome_of_silent rfl).trans ((outcome_word (List.cons_ne_nil _ _)).trans ?_)
    exact bind_feed_eq he (by simp) rfl
  | _, _, stack, e, rest, .number h, he, hrest => by
    rw [outcome_number h hrest]
    exact bind_feed_eq he (by simp) rfl
  | _, _, stack, e, rest, .string h, he, _ => by
    rw [List.cons_append, List.append_assoc, List.singleton_append, outcome_string h]
    exact bind_feed_eq he (by simp) rfl
  | _, _, stack, e, rest, .emptyArray h, he, _ => by
    rw [List.cons_append, List.append_assoc, outcome_openBracket he, outcome_blank h]
    exact outcome_of_fed rfl rfl
  | _, _, stack, e, rest, .array h, he, _ => by
    rw [List.cons_append, List.append_assoc, outcome_openBracket he]
    exact outcome_elements h (.inr rfl)
  | _, _, stack, e, rest, .emptyObject h, he, _ => by
    rw [List.cons_append, List.append_assoc, outcome_openBrace he, outcome_blank h]
    exact outcome_of_fed rfl rfl
  | _, _, stack, e, rest, .object h, he, _ => by
    rw [List.cons_append, List.append_assoc, outcome_openBrace he]
    exact outcome_members h

/-- An element is read where a value may begin, up to what stands behind its white space. -/
theorem outcome_element : ∀ {cs : List Char} {v : Json} {stack : List Container} {e : Expect}
    {rest : List Char}, Element cs v → TakesValue e → Stops rest →
    ReaderState.outcome ⟨.between, ⟨stack, e⟩⟩ (cs ++ rest) =
      ReaderState.outcome ⟨.between, ⟨stack, .after v⟩⟩ rest
  | _, _, stack, e, rest, .mk hbefore h hafter, he, hrest => by
    rw [List.append_assoc, List.append_assoc, outcome_blank hbefore,
      outcome_value h he (stops_blank_append hafter hrest), outcome_blank hafter]

/-- The elements of an array are read up to the closing bracket. -/
theorem outcome_elements : ∀ {cs : List Char} {vs done : List Json} {stack : List Container}
    {e : Expect} {rest : List Char}, Elements cs vs → TakesValue e →
    ReaderState.outcome ⟨.between, ⟨.array done :: stack, e⟩⟩ (cs ++ ']' :: rest) =
      ReaderState.outcome ⟨.between, ⟨stack, .after (.array (done.reverse ++ vs))⟩⟩ rest
  | _, _, done, stack, e, rest, @Elements.last _ v h, he => by
    rw [outcome_element h he (stops_cons (.inr (.inl rfl))), ← List.reverse_cons]
    exact outcome_of_fed rfl rfl
  | _, _, done, stack, e, rest, @Elements.cons _ _ v vs h hs, he => by
    have hcomma : Pending.feed ⟨.array done :: stack, .after v⟩ .comma =
        some ⟨.array (v :: done) :: stack, .value⟩ := rfl
    -- The element joins those that are done, the last of which stands first.
    have hdone : done.reverse ++ v :: vs = (v :: done).reverse ++ vs := by simp
    rw [List.append_assoc, List.cons_append, outcome_element h he (stops_cons (.inl rfl)),
      outcome_of_fed rfl hcomma, hdone]
    exact outcome_elements hs (.inl rfl)

/-- A member of an object is read up to what stands behind its value. -/
theorem outcome_member : ∀ {cs : List Char} {m : Key × Json} {done : List (Key × Json)}
    {first : Bool} {stack : List Container} {rest : List Char}, Member cs m → Stops rest →
    ReaderState.outcome ⟨.between, ⟨stack, .key done first⟩⟩ (cs ++ rest) =
      ReaderState.outcome ⟨.between, ⟨.object done m.1 :: stack, .after m.2⟩⟩ rest
  | _, _, done, first, stack, rest, @Member.mk _ _ _ _ ps _ hbefore hkey hafter h, hrest => by
    have hcolon : Pending.feed ⟨stack, .colon done (Part.text? ps)⟩ .colon =
        some ⟨.object done (Part.text? ps) :: stack, .value⟩ := rfl
    rw [List.append_assoc, outcome_blank hbefore]
    simp only [List.cons_append, List.append_assoc]
    rw [outcome_string hkey]
    refine (outcome_blank hafter).trans ?_
    rw [outcome_of_fed rfl hcolon]
    exact outcome_element h (.inl rfl) hrest

/-- The members of an object are read up to the closing brace. -/
theorem outcome_members : ∀ {cs : List Char} {ms done : List (Key × Json)} {first : Bool}
    {stack : List Container} {rest : List Char}, Members cs ms →
    ReaderState.outcome ⟨.between, ⟨stack, .key done first⟩⟩ (cs ++ '}' :: rest) =
      ReaderState.outcome ⟨.between, ⟨stack, .after (.object (done.reverse ++ ms))⟩⟩ rest
  | _, _, done, first, stack, rest, @Members.last _ m h => by
    rw [outcome_member h (stops_cons (.inr (.inr rfl))), ← List.reverse_cons]
    exact outcome_of_fed rfl rfl
  | _, _, done, first, stack, rest, @Members.cons _ _ m ms h hs => by
    have hcomma : Pending.feed ⟨.object done m.1 :: stack, .after m.2⟩ .comma =
        some ⟨stack, .key (m :: done) false⟩ := rfl
    have hdone : done.reverse ++ m :: ms = (m :: done).reverse ++ ms := by simp
    rw [List.append_assoc, List.cons_append, outcome_member h (stops_cons (.inl rfl)),
      outcome_of_fed rfl hcomma, hdone]
    exact outcome_members hs

end

end Grammar

/-- A text is read as the document that it holds by the grammar. -/
theorem read?_of_element {text : String} {v : Json} (h : Grammar.Element text.toList v) :
    read? text = some v := by
  have houtcome : ReaderState.outcome {} (text.toList ++ []) =
      ReaderState.outcome ⟨.between, ⟨[], .after v⟩⟩ [] :=
    Grammar.outcome_element h (.inl rfl) Grammar.stops_nil
  rw [List.append_nil] at houtcome
  exact houtcome

end ScopeScript.Json
