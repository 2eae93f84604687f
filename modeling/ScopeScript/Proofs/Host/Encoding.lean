import ScopeScript.Host.Module
import ScopeScript.Proofs.Json.Reading
import ScopeScript.Proofs.Json.Writing

/-!
# Host values as JSON

A host value is written without a tag, as the document whose shape tells what it is. The text of a
value holds that document by the grammar, so it is read as the document, and the document gives the
value back. Hence a call through JSON is the plain call between two changes of notation.

* `HostValue.document`: the document that a value is written as.
* `HostValue.value_encode`, `HostValue.value_encodeAll`: what is written is JSON.
* `HostValue.decode?_encode`, `HostValue.decodeAll?_encodeAll`: what is written is read back.

Main statement:

* `Module.callJson_agrees`: a call through JSON answers what the plain call does.
-/

namespace ScopeScript

open Json

namespace HostValue

/-- The document that a value is written as. -/
def document : HostValue → Json
  | none => .null
  | bool b => .bool b
  | int n => .number (some n.toInt)
  | function name => .string (some name)

/-- A value is found again by its document: the shapes of any two kinds differ. -/
@[simp]
theorem ofJson?_document (v : HostValue) : ofJson? v.document = some v := by
  cases v with
  | int n => rw [document, ofJson?, Word.ofInt?_toInt, Option.map_some]
  | _ => rfl

/-- Values are found again by their documents. -/
theorem mapM_ofJson?_document (vs : List HostValue) : (vs.map document).mapM ofJson? = some vs := by
  induction vs with
  | nil => rfl
  | cons v vs ih => simp [List.mapM_cons, ih]

/-- The text of a value is JSON. -/
theorem value_encode (v : HostValue) : Grammar.Value v.encode.toList v.document := by
  cases v with
  | none => exact .null
  | bool b =>
    cases b with
    | true => exact .true
    | false => exact .false
  | int n => exact Grammar.value_decimal n.toInt
  | function name => exact Grammar.value_quote name

/-- The texts of several values with commas between them are elements. -/
theorem elements_encode (v : HostValue) (vs : List HostValue) :
    Grammar.Elements (",".intercalate ((v :: vs).map encode)).toList ((v :: vs).map document) := by
  induction vs generalizing v with
  | nil =>
    rw [List.map_singleton, List.map_singleton, String.intercalate_singleton]
    exact .last v.value_encode.element
  | cons w ws ih =>
    have htext : (",".intercalate ((v :: w :: ws).map encode)).toList =
        v.encode.toList ++ ',' :: (",".intercalate ((w :: ws).map encode)).toList := by
      simp [String.intercalate_cons_cons]
    rw [htext]
    exact .cons v.value_encode.element (ih w)

/-- The text of several values is a JSON array. -/
theorem value_encodeAll (vs : List HostValue) :
    Grammar.Value (encodeAll vs).toList (.array (vs.map document)) := by
  have htext : (encodeAll vs).toList =
      '[' :: ((",".intercalate (vs.map encode)).toList ++ [']']) := by
    simp [encodeAll]
  rw [htext]
  cases vs with
  | nil => exact .emptyArray Grammar.blank_nil
  | cons v vs => exact .array (elements_encode v vs)

/-- A value is read back from its text. -/
theorem decode?_encode (v : HostValue) : decode? v.encode = some v := by
  rw [decode?, read?_of_element v.value_encode.element]
  exact ofJson?_document v

/-- Values are read back from their text. -/
theorem decodeAll?_encodeAll (vs : List HostValue) : decodeAll? (encodeAll vs) = some vs := by
  rw [decodeAll?, read?_of_element ((value_encodeAll vs).element)]
  exact mapM_ofJson?_document vs

/-- A value is told by its text. -/
theorem encode_inj {v w : HostValue} : v.encode = w.encode ↔ v = w := by
  constructor
  · intro h
    have hdecode := decode?_encode v
    rw [h, decode?_encode w] at hdecode
    exact (Option.some.inj hdecode).symm
  · rintro rfl
    rfl

end HostValue

namespace Module

/-- A call through JSON with the arguments of a plain call is the plain call, and its result is
written as JSON. -/
theorem callJson_encodeAll (m : Module) (describe : String → String) (name : String)
    (args : List HostValue) :
    m.callJson describe name (HostValue.encodeAll args) =
      ((m.call name args).1.map HostValue.encode, (m.call name args).2) := by
  rw [callJson, HostValue.decodeAll?_encodeAll]

/-- The two ways to call a function agree. With the text of the arguments a call through JSON
answers the text of a value exactly when the plain call answers the value, fails exactly when and as
the plain call does, and leaves the same module. The text of a value, and of several values as an
array, is JSON for what they are without a tag, and they are read back from it. -/
theorem callJson_agrees (m : Module) (describe : String → String) (name : String)
    (args : List HostValue) :
    (∀ r, (m.callJson describe name (HostValue.encodeAll args)).1 = .ok (HostValue.encode r) ↔
      (m.call name args).1 = .ok r) ∧
    (∀ e, (m.callJson describe name (HostValue.encodeAll args)).1 = .error e ↔
      (m.call name args).1 = .error e) ∧
    (m.callJson describe name (HostValue.encodeAll args)).2 = (m.call name args).2 ∧
    (∀ v : HostValue,
      Grammar.Value v.encode.toList v.document ∧ HostValue.decode? v.encode = some v) ∧
    Grammar.Value (HostValue.encodeAll args).toList (.array (args.map HostValue.document)) ∧
    HostValue.decodeAll? (HostValue.encodeAll args) = some args := by
  rw [callJson_encodeAll]
  refine ⟨?_, ?_, rfl, fun v => ⟨v.value_encode, v.decode?_encode⟩,
    HostValue.value_encodeAll args, HostValue.decodeAll?_encodeAll args⟩
  · intro r
    cases (m.call name args).1 with
    | ok v => simp [Except.map, HostValue.encode_inj]
    | error e => simp [Except.map]
  · intro e
    cases (m.call name args).1 <;> simp [Except.map]

end Module

end ScopeScript
