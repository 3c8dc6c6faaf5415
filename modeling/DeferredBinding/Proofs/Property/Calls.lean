import DeferredBinding.Proofs.Property.Invariant

/-!
# Calls on a model

A model is filled and narrowed by a sequence of calls, and each of them is accepted or refused. What one call comes to is said by
`Answered`: it is accepted exactly when it is admissible, then it does what it asks for and nothing else, and where it is refused
the model stays as it was. So every model that calls lead to from the empty one is well-formed, and its next call is answered in
this way (`calls_keep_wellFormed`).
-/

namespace DeferredBinding.Model

/-- A call on a model. A property is declared in place or, as the link of a chain of declarations, on the model handed on. -/
inductive Call where
  | addBinding (b : Binding)
  | withBinding (b : Binding)
  | addConfiguration (c : Configuration)
  | withConfiguration (c : Configuration)
  | pin (name value : String)
  deriving DecidableEq, Repr

/-- The model that a call gives, if it is accepted. -/
def answer? (m : Model) : Call → Except DefinitionError Model
  | .addBinding b => m.addBinding b
  | .withBinding b => m.addBinding b
  | .addConfiguration c => m.addConfiguration c
  | .withConfiguration c => m.addConfiguration c
  | .pin name value => m.pin name value

/-- What a call reports, and the model after it. -/
def call (m : Model) (c : Call) : Except DefinitionError Unit × Model :=
  match m.answer? c with
  | .ok m' => (.ok (), m')
  | .error e => (.error e, m)

/-- The model after a sequence of calls. -/
def afterCalls (m : Model) (calls : List Call) : Model :=
  calls.foldl (fun m c => (m.call c).2) m

/-! ## What a call asks for -/

/-- The calls that a model admits: declarations of new names, with values and groups that pass the check, and pins to legal
values. -/
def Admits (m : Model) : Call → Prop
  | .addBinding b => b.name ∉ m.names ∧ b.Valid
  | .withBinding b => b.name ∉ m.names ∧ b.Valid
  | .addConfiguration c => c.name ∉ m.names
  | .withConfiguration c => c.name ∉ m.names
  | .pin name value => m.Legal name value

/-- A property pinned to a value: its name and its provider are kept. -/
structure PinnedTo (value : String) (b b' : Binding) : Prop where
  name : b'.name = b.name
  provider : b'.provider = b.provider
  values : b'.values = [value]
  collapse : b'.collapse = []
  collapseAll : b'.collapseAll = false

/-- What becomes of a model by a call that is accepted. A declared property comes last in its table. A pin changes the binding
property of its name, in its place, and no other. -/
def Becomes (m m' : Model) : Call → Prop
  | .addBinding b => m' = { m with bindings := m.bindings ++ [b] }
  | .withBinding b => m' = { m with bindings := m.bindings ++ [b] }
  | .addConfiguration c => m' = { m with configurations := m.configurations ++ [c] }
  | .withConfiguration c => m' = { m with configurations := m.configurations ++ [c] }
  | .pin name value => m'.configurations = m.configurations ∧
      List.Forall₂ (fun b b' => (b.name = name → PinnedTo value b b') ∧ (b.name ≠ name → b' = b)) m.bindings m'.bindings

/-- What a call comes to: the report and the model after it. -/
structure Answered (m : Model) (c : Call) (report : Except DefinitionError Unit) (m' : Model) : Prop where
  accepted : report = .ok () ↔ m.Admits c
  becomes : report = .ok () → m.Becomes m' c
  refused : ∀ e, report = .error e → m' = m

/-! ## One call -/

theorem becomes_narrow (m : Model) (name value : String) : m.Becomes (m.narrow name value) (.pin name value) := by
  refine ⟨rfl, ?_⟩
  unfold narrow
  rw [List.forall₂_map_right_iff, List.forall₂_same]
  intro b _
  constructor
  · intro hname
    rw [if_pos hname]
    exact ⟨rfl, rfl, rfl, rfl, rfl⟩
  · intro hname
    exact if_neg hname

/-- A call gives a model exactly if it is admissible, and the model is what it asks for. -/
theorem WellFormed.answer?_spec {m : Model} (h : m.WellFormed) (c : Call) :
    (∃ m', m.answer? c = .ok m' ∧ m.Admits c ∧ m.Becomes m' c) ∨ ∃ e, m.answer? c = .error e ∧ ¬m.Admits c := by
  cases hanswer : m.answer? c with
  | ok m' =>
    refine Or.inl ⟨m', rfl, ?_⟩
    cases c with
    | addBinding b =>
      obtain ⟨hname, hvalid, hm'⟩ := (addBinding_eq_ok_iff m m' b).1 hanswer
      exact ⟨⟨hname, hvalid⟩, hm'⟩
    | withBinding b =>
      obtain ⟨hname, hvalid, hm'⟩ := (addBinding_eq_ok_iff m m' b).1 hanswer
      exact ⟨⟨hname, hvalid⟩, hm'⟩
    | addConfiguration c => exact (addConfiguration_eq_ok_iff m m' c).1 hanswer
    | withConfiguration c => exact (addConfiguration_eq_ok_iff m m' c).1 hanswer
    | pin name value =>
      obtain ⟨hlegal, rfl⟩ := (h.pin_eq_ok_iff m' name value).1 hanswer
      exact ⟨hlegal, m.becomes_narrow name value⟩
  | error e =>
    refine Or.inr ⟨e, rfl, fun hadmits => ?_⟩
    -- an admissible call would have been accepted
    obtain ⟨m', hok⟩ : ∃ m', m.answer? c = .ok m' := by
      cases c with
      | addBinding b => exact ⟨_, (addBinding_eq_ok_iff m _ b).2 ⟨hadmits.1, hadmits.2, rfl⟩⟩
      | withBinding b => exact ⟨_, (addBinding_eq_ok_iff m _ b).2 ⟨hadmits.1, hadmits.2, rfl⟩⟩
      | addConfiguration c => exact ⟨_, (addConfiguration_eq_ok_iff m _ c).2 ⟨hadmits, rfl⟩⟩
      | withConfiguration c => exact ⟨_, (addConfiguration_eq_ok_iff m _ c).2 ⟨hadmits, rfl⟩⟩
      | pin name value => exact ⟨_, (h.pin_eq_ok_iff _ name value).2 ⟨hadmits, rfl⟩⟩
    rw [hanswer] at hok
    nomatch hok

/-- Every call on a well-formed model is answered. -/
theorem WellFormed.answered {m : Model} (h : m.WellFormed) (c : Call) : m.Answered c (m.call c).1 (m.call c).2 := by
  unfold call
  rcases h.answer?_spec c with ⟨m', hok, hadmits, hbecomes⟩ | ⟨e, herror, hadmits⟩
  · rw [hok]
    exact ⟨⟨fun _ => hadmits, fun _ => rfl⟩, fun _ => hbecomes, nofun⟩
  · rw [herror]
    exact ⟨⟨nofun, fun hyes => absurd hyes hadmits⟩, nofun, fun _ _ => rfl⟩

/-- A call leads from a reachable model to a reachable one. -/
theorem Reachable.call {m : Model} (h : m.Reachable) (c : Call) : (m.call c).2.Reachable := by
  unfold Model.call
  split
  · rename_i m' hanswer
    cases c with
    | addBinding b => exact h.addBinding hanswer
    | withBinding b => exact h.addBinding hanswer
    | addConfiguration c => exact h.addConfiguration hanswer
    | withConfiguration c => exact h.addConfiguration hanswer
    | pin name value => exact h.pin hanswer
  · exact h

/-! ## Sequences of calls -/

/-- Calls lead from a reachable model to reachable ones. -/
theorem Reachable.afterCalls {m : Model} (h : m.Reachable) (calls : List Call) : (m.afterCalls calls).Reachable := by
  induction calls generalizing m with
  | nil => exact h
  | cons c calls ih => exact ih (h.call c)

/-- After any calls on the empty model, no name is declared twice and every binding property has values, none of them twice, and
disjoint groups of its own values; and the next call is answered, so it changes nothing where it is refused. -/
theorem calls_keep_wellFormed (calls : List Call) (c : Call) :
    (Model.empty.afterCalls calls).WellFormed ∧
      ∃ report m', (Model.empty.afterCalls calls).call c = (report, m') ∧
        Model.empty.afterCalls (calls ++ [c]) = m' ∧ (Model.empty.afterCalls calls).Answered c report m' := by
  have hformed := (Reachable.empty.afterCalls calls).wellFormed
  refine ⟨hformed, _, _, rfl, ?_, hformed.answered c⟩
  unfold afterCalls
  rw [List.foldl_append]
  rfl

end DeferredBinding.Model
