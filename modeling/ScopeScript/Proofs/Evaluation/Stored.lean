import ScopeScript.Environment

/-!
# Values on the stack

What all values on a stack have in common, whether names are bound to them or they are returned and
not yet collected. The operations on the stack keep it, and what they give has it.

* `NameMap.All`, `Frame.All`, `Environment.All`: all values in a map, a frame or on a stack have a
  property.
-/

namespace ScopeScript

/-- What a map holds has the property. -/
def NameMap.All {α : Type} (P : α → Prop) (b : NameMap α) : Prop :=
  ∀ name a, b.get? name = some a → P a

namespace NameMap.All

variable {α : Type} {P : α → Prop} {b : NameMap α}

/-- The empty map holds nothing. -/
theorem empty : All P (NameMap.empty : NameMap α) := by
  intro name a h
  cases h

/-- A name set to what has the property. -/
theorem insert (h : b.All P) (name : String) {a : α} (ha : P a) : (b.insert name a).All P := by
  intro k a' hk
  rw [get?_insert] at hk
  split at hk
  · obtain rfl := Option.some.inj hk
    exact ha
  · exact h k a' hk

/-- Pairs whose second parts have the property, inserted one after the other. -/
theorem foldl_insert {pairs : List (String × α)} (hpairs : ∀ p ∈ pairs, P p.2) (h : b.All P) :
    (pairs.foldl (fun m p => m.insert p.1 p.2) b).All P := by
  induction pairs generalizing b with
  | nil => exact h
  | cons p ps ih =>
    have hp : P p.2 := hpairs p List.mem_cons_self
    exact ih (fun q hq => hpairs q (List.mem_cons_of_mem _ hq)) (h.insert p.1 hp)

/-- The names of a list with values that have the property. -/
theorem ofList_zip (names : List String) {values : List α} (h : ∀ a ∈ values, P a) :
    (NameMap.ofList (names.zip values)).All P :=
  foldl_insert (fun _ hp => h _ (List.of_mem_zip hp).2) empty

end NameMap.All

/-- The values in a frame have the property. -/
def Frame.All (P : Value → Prop) : Frame → Prop
  | scope b => b.All P
  | ret v => P v

/-- The values on the stack have the property. -/
def Environment.All (P : Value → Prop) (env : Environment) : Prop :=
  ∀ frame ∈ env.frames, frame.All P

namespace Environment.All

variable {P : Value → Prop} {env env' : Environment} {name : String} {v : Value}

/-- At the start there is no value on the stack. -/
theorem initial : All P Environment.initial := by
  intro frame hmem
  obtain rfl := List.mem_singleton.1 hmem
  exact NameMap.All.empty

/-- One more frame. -/
theorem push (h : env.All P) {frame : Frame} (hframe : frame.All P) : (env.push frame).All P := by
  intro frame' hmem
  rcases List.mem_cons.1 hmem with rfl | hmem
  · exact hframe
  · exact h frame' hmem

/-- The value of a name. -/
theorem of_resolve (h : env.All P) (hname : env.resolve name = .ok v) : P v := by
  have hlookup : env.lookup? name = some v := by
    unfold resolve at hname
    split at hname
    · next value hvalue =>
      obtain rfl := Except.ok.inj hname
      exact hvalue
    · cases hname
  obtain ⟨frame, hmem, hget⟩ := List.exists_of_findSome?_eq_some hlookup
  have hframe : frame.All P := h frame hmem
  cases frame with
  | scope b => exact hframe name v hget
  | ret value => cases hget

/-- A value bound on top. -/
theorem define (h : env.All P) (hv : P v) (hdefine : env.define name v = .ok env') :
    env'.All P := by
  obtain ⟨frames⟩ := env
  match frames with
  | [] => cases hdefine
  | .ret _ :: _ => cases hdefine
  | .scope b :: rest =>
    obtain rfl := Except.ok.inj hdefine
    have hb : b.All P := h (.scope b) List.mem_cons_self
    have hrest : Environment.All P ⟨rest⟩ :=
      fun frame hmem => h frame (List.mem_cons_of_mem _ hmem)
    exact hrest.push (hb.insert name hv)

/-- The frame on top and those below it. -/
theorem of_pop (h : env.All P) {frame : Frame} (hpop : env.pop = .ok (frame, env')) :
    frame.All P ∧ env'.All P := by
  obtain ⟨frames⟩ := env
  cases frames with
  | nil => cases hpop
  | cons top rest =>
    cases hpop
    exact ⟨h frame List.mem_cons_self, fun frame' hmem => h frame' (List.mem_cons_of_mem _ hmem)⟩

/-- The lowest frames. -/
theorem truncate (h : env.All P) (depth : Nat) : (env.truncate depth).All P :=
  fun frame hmem => h frame (List.mem_of_mem_drop hmem)

end Environment.All

end ScopeScript
