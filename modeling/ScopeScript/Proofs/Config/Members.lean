import ScopeScript.Config.OfJson
import ScopeScript.Proofs.Json.Reading
import ScopeScript.Proofs.Json.Writing

/-!
# Settings as members of an object

Settings depend on two members of their object and on nothing else: whatever members with other keys
stand before, between or behind the two, with whatever values, the settings are those that are
given, and the defaults for those that are not. A setting must not be given twice.

* `Config.given`: the members that spell the settings given.
* `Config.setting?_of_perm`: a setting is what the only member with its key spells, wherever that
  member stands.
* `Config.setting?_of_twice`: a setting given twice is an error.

Main statement:

* `Config.ofText?_members`: the settings that the text of an object spells.
-/

namespace ScopeScript

namespace Config

open Json

/-- The keys of the settings. -/
def keys : List String :=
  ["truthiness", "max_call_depth"]

/-- The member with a key, if there is a value for it. -/
def member (key : String) (value : Option Json) : List (String × Json) :=
  value.toList.map fun v => (key, v)

/-- The members that spell the settings given. -/
def given (truthiness : Option Truthiness) (depth : Option UInt64) : List (String × Json) :=
  member "truthiness" (truthiness.map fun t => .string (some t.name)) ++
    member "max_call_depth" (depth.map fun d => .number (some d.toNat))

/-- Members whose keys have a text. -/
def keyed (members : List (String × Json)) : List (Key × Json) :=
  members.map fun m => (some m.1, m.2)

/-! ### One setting -/

section

variable {α : Type} {key : String} {default : α} {read? : Json → Option α}

/-- Among members with other keys there is none with the key. -/
theorem filter_keyed_eq_nil {members : List (String × Json)} (h : ∀ m ∈ members, m.1 ≠ key) :
    (keyed members).filter (fun m => m.1 == some key) = [] := by
  refine List.filter_eq_nil_iff.2 fun m hm => ?_
  obtain ⟨m, hmem, rfl⟩ := List.mem_map.1 hm
  simpa using h m hmem

/-- Among members with a key there are all with the key. -/
theorem filter_keyed_member (value : Option Json) :
    (keyed (member key value)).filter (fun m => m.1 == some key) =
      value.toList.map fun v => (some key, v) := by
  cases value <;> simp [keyed, member]

/-- A setting is what the only member with its key spells, wherever that member stands; without such
a member it is the default. -/
theorem setting?_of_perm {members others : List (String × Json)} {value : Option Json}
    (h : members.Perm (member key value ++ others)) (hothers : ∀ m ∈ others, m.1 ≠ key) :
    setting? (keyed members) key default read? = value.elim (some default) read? := by
  have hvalue : ((keyed members).filter fun m => m.1 == some key).Perm
      (value.toList.map fun v => (some key, v)) := by
    have hperm := (h.map fun m : String × Json => (some m.1, m.2)).filter fun m => m.1 == some key
    rwa [List.map_append, List.filter_append, ← keyed, ← keyed, ← keyed, filter_keyed_member,
      filter_keyed_eq_nil hothers, List.append_nil] at hperm
  rw [setting?]
  cases value with
  | none =>
    rw [List.perm_nil.1 hvalue]
    rfl
  | some v =>
    rw [List.perm_singleton.1 hvalue]
    rfl

/-- A setting that is given twice is an error, whatever its members spell. -/
theorem setting?_of_twice {members : List (Key × Json)}
    (h : 2 ≤ members.countP fun m => m.1 == some key) :
    setting? members key default read? = none := by
  rw [List.countP_eq_length_filter] at h
  rw [setting?]
  split
  · next hnone =>
    rw [hnone] at h
    cases h
  · next hone =>
    rw [hone] at h
    cases Nat.le_of_succ_le_succ h
  · rfl

end

/-! ### Both settings -/

/-- Members whose keys have a text are read one setting after the other. -/
theorem ofJson?_keyed (members : List (String × Json)) :
    ofJson? (.object (keyed members)) =
      (setting? (keyed members) "truthiness" .strict Truthiness.ofJson?).bind fun t =>
        (setting? (keyed members) "max_call_depth" 1000 depthOfJson?).map fun d => ⟨t, d⟩ := by
  have hkeys : ((keyed members).any fun m => m.1.isNone) = false := by
    simp [keyed]
  rw [ofJson?, hkeys]
  cases setting? (keyed members) "truthiness" .strict Truthiness.ofJson? <;>
    cases setting? (keyed members) "max_call_depth" 1000 depthOfJson? <;> rfl

/-- A word without a sign is found again by the number that spells it. -/
theorem depthOfJson?_toNat (d : UInt64) : depthOfJson? (.number (some d.toNat)) = some d.toNat :=
  if_pos d.toNat_lt

variable {truthiness : Option Truthiness} {depth : Option UInt64}
  {members others : List (String × Json)}

/-- The other setting and members with other keys leave a setting alone. -/
theorem forall_ne_key {key other : String} {value : Option Json} (hne : other ≠ key)
    (hkey : key ∈ keys) (hothers : ∀ m ∈ others, m.1 ∉ keys) :
    ∀ m ∈ member other value ++ others, m.1 ≠ key := by
  intro m hm
  rcases List.mem_append.1 hm with hmember | hother
  · obtain ⟨v, -, rfl⟩ := List.mem_map.1 hmember
    exact hne
  · rintro rfl
    exact hothers m hother hkey

/-- The truthiness mode is the one that is given, wherever it stands. -/
theorem setting?_truthiness (h : members.Perm (given truthiness depth ++ others))
    (hothers : ∀ m ∈ others, m.1 ∉ keys) :
    setting? (keyed members) "truthiness" .strict Truthiness.ofJson? =
      some (truthiness.getD .strict) := by
  rw [given, List.append_assoc] at h
  rw [setting?_of_perm h (forall_ne_key (by decide) List.mem_cons_self hothers)]
  cases truthiness with
  | none => rfl
  | some t => exact Truthiness.ofName?_name t

/-- The limit of calls is the one that is given, wherever it stands. -/
theorem setting?_maxCallDepth (h : members.Perm (given truthiness depth ++ others))
    (hothers : ∀ m ∈ others, m.1 ∉ keys) :
    setting? (keyed members) "max_call_depth" 1000 depthOfJson? =
      some ((depth.map UInt64.toNat).getD 1000) := by
  -- The member of the limit changes places with that of the mode.
  have h := h.trans (List.perm_append_comm.append_right others)
  rw [List.append_assoc] at h
  rw [setting?_of_perm h
    (forall_ne_key (by decide) (List.mem_cons_of_mem _ List.mem_cons_self) hothers)]
  cases depth with
  | none => rfl
  | some d => exact depthOfJson?_toNat d

/-- A setting given twice spoils the settings. -/
theorem ofJson?_of_twice {members : List (Key × Json)} {key : String} (hkey : key ∈ keys)
    (h : 2 ≤ members.countP fun m => m.1 == some key) : ofJson? (.object members) = none := by
  rw [ofJson?]
  split
  · rfl
  · rcases List.mem_cons.1 hkey with rfl | hkey
    · rw [setting?_of_twice h]
      rfl
    · rw [List.mem_singleton.1 hkey] at h
      rw [setting?_of_twice h]
      cases setting? members "truthiness" .strict Truthiness.ofJson? <;> rfl

/-- Settings are read off an object by their keys alone. Whatever members with other keys are mixed
with those that spell the settings given, in whatever order, with whatever values and white space,
the text of the object spells the settings given, and the defaults for the others. The text of an
object in which the key of a setting stands twice spells no settings, whatever else it holds. -/
theorem ofText?_members :
    (∀ (truthiness : Option Truthiness) (depth : Option UInt64)
      (others members : List (String × Json)) (text : String),
      (∀ m ∈ others, m.1 ∉ keys) → members.Perm (given truthiness depth ++ others) →
      Grammar.Element text.toList (.object (keyed members)) →
      ofText? text = some
        { truthiness := truthiness.getD ({} : Config).truthiness
          maxCallDepth := (depth.map UInt64.toNat).getD ({} : Config).maxCallDepth }) ∧
    ∀ (members : List (Key × Json)) (text : String),
      (∃ key ∈ keys, 2 ≤ members.countP fun m => m.1 == some key) →
      Grammar.Element text.toList (.object members) → ofText? text = none := by
  constructor
  · intro truthiness depth others members text hothers hperm htext
    rw [ofText?, read?_of_element htext, Option.bind_some, ofJson?_keyed,
      setting?_truthiness hperm hothers, setting?_maxCallDepth hperm hothers]
    rfl
  · rintro members text ⟨key, hkey, htwice⟩ htext
    rw [ofText?, read?_of_element htext, Option.bind_some]
    exact ofJson?_of_twice hkey htwice

/-- Both settings, the key of one with an escape, behind a member whose value holds a closing brace
in a string, the key of a setting, and a number that is no integer; and a setting that is given
twice, once with the escape. -/
theorem ofText?_members_of_lookalikes :
    let text := " \x7b\"x\":\x7b\"truthiness\":[\"\x7d\\\"\", null,-0]\x7d," ++
      "\"\\u006dax_call_depth\":7,\t\"truthiness\" :\"python\"\n\x7d"
    let twice := "\x7b\"max_call_depth\":7,\"\\u006dax_call_depth\":7\x7d"
    let lookalike : String × Json :=
      ("x", .object [(some "truthiness", .array [.string (some "\x7d\""), .null, .number none])])
    let depth : String × Json := ("max_call_depth", .number (some 7))
    let members := [lookalike, depth, ("truthiness", .string (some "python"))]
    (lookalike.1 ∉ keys ∧ members.Perm (given (some .python) (some 7) ++ [lookalike]) ∧
      Grammar.Element text.toList (.object (keyed members)) ∧
      ofText? text = some ⟨.python, 7⟩) ∧
    "max_call_depth" ∈ keys ∧
      2 ≤ (keyed [depth, depth]).countP (fun m => m.1 == some "max_call_depth") ∧
      Grammar.Element twice.toList (.object (keyed [depth, depth])) ∧ ofText? twice = none := by
  intro text twice lookalike depth members
  have hblank : ∀ cs : List Char, cs.all isSpace = true → Grammar.Blank cs :=
    fun _ => List.all_eq_true.1
  have hplain : ∀ cs : List Char, (cs.all fun c => c ≠ '"' ∧ c ≠ '\\' ∧ 0x20 ≤ c.toNat) = true →
      ∀ c ∈ cs, c ≠ '"' ∧ c ≠ '\\' ∧ 0x20 ≤ c.toNat :=
    fun _ hall c hc => of_decide_eq_true (List.all_eq_true.1 hall c hc)
  -- The limit, with an escape in its key.
  have hkey : Grammar.Characters ('\\' :: 'u' :: '0' :: '0' :: '6' :: 'd' :: "ax_call_depth".toList)
      (.unit 0x6d :: "ax_call_depth".toList.map .char) :=
    have hzero : hexValue? '0' = some 0 := rfl
    have hsix : hexValue? '6' = some 6 := rfl
    have hd : hexValue? 'd' = some 13 := rfl
    .unit hzero hzero hsix hd (.of_plain (hplain "ax_call_depth".toList rfl))
  have hunescaped : Grammar.Part.text? (.unit 0x6d :: "ax_call_depth".toList.map .char) =
      some "max_call_depth" := by
    decide +kernel
  have hdepth := Grammar.Member.mk Grammar.blank_nil hkey Grammar.blank_nil
    (Grammar.value_decimal 7).element
  rw [hunescaped] at hdepth
  have hmode := Grammar.Member.mk (hblank ['\t'] rfl)
    (.of_plain (hplain "truthiness".toList rfl))
    (hblank [' '] rfl)
    (.mk Grammar.blank_nil (Grammar.value_quote "python") (hblank ['\n'] rfl))
  rw [Grammar.Part.text?_map_char] at hmode
  have hzero : Grammar.Value ['-', '0'] (.number none) := .number (.mk true .zero .absent .absent)
  have hitems := Grammar.Elements.cons (Grammar.value_quote "\x7d\"").element
    (.cons (.mk (hblank [' '] rfl) .null Grammar.blank_nil) (.last hzero.element))
  have hinner := Grammar.Members.last
    (Grammar.Member.of_plain "truthiness" (hplain _ rfl) (Grammar.Value.array hitems).element)
  have houter := Grammar.Member.of_plain "x" (hplain _ rfl) (Grammar.Value.object hinner).element
  have hmembers := Grammar.Members.cons houter (.cons hdepth (.last hmode))
  have htext : Grammar.Element text.toList (.object (keyed members)) := by
    convert Grammar.Element.mk (hblank [' '] rfl) (.object hmembers) Grammar.blank_nil using 1
    · simp only [text]
      decide +kernel
    · rfl
  have hlimit := Grammar.Member.of_plain "max_call_depth" (hplain _ rfl)
    (Grammar.value_decimal 7).element
  have htwice : Grammar.Element twice.toList (.object (keyed [depth, depth])) := by
    convert (Grammar.Value.object (.cons hlimit (.last hdepth))).element using 1
    · simp only [twice]
      decide +kernel
    · rfl
  have hother : lookalike.1 ∉ keys := by
    simp only [lookalike]
    decide
  have hperm : members.Perm (given (some .python) (some 7) ++ [lookalike]) :=
    (List.reverse_perm _).symm
  have hkeys : "max_call_depth" ∈ keys := by decide
  have hcount : 2 ≤ (keyed [depth, depth]).countP fun m => m.1 == some "max_call_depth" := by
    decide
  refine ⟨⟨hother, hperm, htext, ?_⟩, hkeys, hcount, htwice, ?_⟩
  · exact ofText?_members.1 (some .python) (some 7) [lookalike] members text
      (List.forall_mem_singleton.2 hother) hperm htext
  · exact ofText?_members.2 (keyed [depth, depth]) twice ⟨_, hkeys, hcount⟩ htwice

end Config

end ScopeScript
