import DeferredBinding.Proofs.Property.Enumeration

/-!
# The order of pins

A pin narrows the table that the next one is checked against, so a list of pins may be accepted or refused depending on what
comes before. Still, whether a list is accepted is a matter of its pins and not of their order: each has to be legal for the
model as it was, and no name may be given two values (`pinAll_eq_ok_iff`). What the pins leave of a property is then found under
its name, wherever in the list that is (`lookup_perm`), so permuted pins give one model (`pinAll_perm`).
-/

namespace DeferredBinding

/-- No name is given two values. -/
def Consistent (pins : List (String × String)) : Prop :=
  ∀ p ∈ pins, ∀ q ∈ pins, p.1 = q.1 → p.2 = q.2

namespace Consistent

variable {pins pins' : List (String × String)}

theorem tail {p : String × String} (h : Consistent (p :: pins)) : Consistent pins := by
  intro a ha b hb
  exact h a (List.mem_cons_of_mem _ ha) b (List.mem_cons_of_mem _ hb)

theorem perm (h : Consistent pins) (hp : pins.Perm pins') : Consistent pins' := by
  intro a ha b hb
  exact h a (hp.mem_iff.2 ha) b (hp.mem_iff.2 hb)

/-- Where no name is given two values, what is listed with a name is found under it. -/
theorem lookup_eq_some_iff (h : Consistent pins) (name value : String) :
    List.lookup name pins = some value ↔ (name, value) ∈ pins := by
  constructor
  · exact mem_of_lookup_eq_some
  · intro hmem
    cases hlook : List.lookup name pins with
    | none =>
      have hne := List.lookup_eq_none_iff.1 hlook (name, value) hmem
      simp at hne
    | some found =>
      have hfound := mem_of_lookup_eq_some hlook
      exact congrArg some (h (name, found) hfound (name, value) hmem rfl)

theorem lookup_perm (h : Consistent pins) (hp : pins.Perm pins') (name : String) :
    List.lookup name pins = List.lookup name pins' := by
  refine Option.ext ?_
  intro value
  rw [h.lookup_eq_some_iff, (h.perm hp).lookup_eq_some_iff, hp.mem_iff]

end Consistent

namespace Model

/-- What is legal stays legal after a narrowing, of the narrowed name only the value narrowed to. -/
theorem Legal.narrow {m : Model} {name value n v : String} (h : m.Legal n v) (hv : n = name → v = value) :
    (m.narrow name value).Legal n v := by
  rcases h with ⟨b, hb, rfl, hmem⟩ | hc
  · by_cases hn : b.name = name
    · refine Or.inl ⟨b.narrowed value, List.mem_map.2 ⟨b, hb, if_pos hn⟩, rfl, ?_⟩
      rw [hv hn]
      exact List.mem_singleton_self value
    · exact Or.inl ⟨b, List.mem_map.2 ⟨b, hb, if_neg hn⟩, rfl, hmem⟩
  · exact Or.inr hc

/-- Legal pins that give no name two values are accepted one after another. -/
theorem WellFormed.exists_pinAll {m : Model} (h : m.WellFormed) {pins : List (String × String)}
    (hlegal : ∀ p ∈ pins, m.Legal p.1 p.2) (hsame : Consistent pins) : ∃ m', m.pinAll pins = .ok m' := by
  induction pins generalizing m with
  | nil => exact ⟨m, rfl⟩
  | cons a pins ih =>
    obtain ⟨name, value⟩ := a
    have hfirst : m.pin name value = .ok (m.narrow name value) :=
      (h.pin_eq_ok_iff _ name value).2 ⟨hlegal _ List.mem_cons_self, rfl⟩
    -- the later pins are legal for the narrowed model: those of the same name give the value narrowed to
    have hrest : ∀ p ∈ pins, (m.narrow name value).Legal p.1 p.2 := by
      intro p hp
      refine (hlegal p (List.mem_cons_of_mem _ hp)).narrow ?_
      intro hn
      exact hsame p (List.mem_cons_of_mem _ hp) (name, value) List.mem_cons_self hn
    obtain ⟨m', hm'⟩ := ih (h.narrowed name value) hrest hsame.tail
    exact ⟨m', (pinAll_cons_eq_ok_iff m m' name value pins).2 ⟨_, hfirst, hm'⟩⟩

/-- Which pins a well-formed model accepts, and what they leave of it. -/
theorem WellFormed.pinAll_eq_ok_iff {m : Model} (h : m.WellFormed) (m' : Model) (pins : List (String × String)) :
    m.pinAll pins = .ok m' ↔
      (∀ p ∈ pins, m.Legal p.1 p.2) ∧ Consistent pins ∧
        m' = { m with bindings := m.bindings.map (Binding.pinnedBy pins) } := by
  constructor
  · exact h.pinAll_eq_ok
  · rintro ⟨hlegal, hsame, rfl⟩
    obtain ⟨m', hm'⟩ := h.exists_pinAll hlegal hsame
    obtain ⟨-, -, rfl⟩ := h.pinAll_eq_ok hm'
    exact hm'

theorem WellFormed.pinAll_of_perm {m : Model} (h : m.WellFormed) {pins pins' : List (String × String)} (hp : pins.Perm pins')
    {m' : Model} (hm' : m.pinAll pins = .ok m') : m.pinAll pins' = .ok m' := by
  obtain ⟨hlegal, hsame, rfl⟩ := (h.pinAll_eq_ok_iff m' pins).1 hm'
  refine (h.pinAll_eq_ok_iff _ pins').2 ⟨?_, hsame.perm hp, ?_⟩
  · intro p hmem
    exact hlegal p (hp.mem_iff.2 hmem)
  · have hleft : Binding.pinnedBy pins = Binding.pinnedBy pins' := by
      funext b
      unfold Binding.pinnedBy
      rw [hsame.lookup_perm hp]
    rw [hleft]

/-- Pins in another order are accepted alike and give the same model, so the same permutations; they are accepted exactly if each
is legal for the model that they start from and no name is given two values. -/
theorem pinAll_perm {m : Model} (h : m.Reachable) {pins pins' : List (String × String)} (hp : pins.Perm pins') :
    (∀ m', m.pinAll pins = .ok m' ↔ m.pinAll pins' = .ok m') ∧
      (∀ ps, (∃ m', m.pinAll pins = .ok m' ∧ m'.permutations = ps) ↔ ∃ m', m.pinAll pins' = .ok m' ∧ m'.permutations = ps) ∧
      ((∃ m', m.pinAll pins = .ok m') ↔ (∀ p ∈ pins, m.Legal p.1 p.2) ∧ Consistent pins) := by
  have hwell := h.wellFormed
  have hsame : ∀ m', m.pinAll pins = .ok m' ↔ m.pinAll pins' = .ok m' := by
    intro m'
    exact ⟨hwell.pinAll_of_perm hp, hwell.pinAll_of_perm hp.symm⟩
  refine ⟨hsame, ?_, ?_⟩
  · intro ps
    simp only [hsame]
  · constructor
    · rintro ⟨m', hm'⟩
      obtain ⟨hlegal, hconsistent, -⟩ := hwell.pinAll_eq_ok hm'
      exact ⟨hlegal, hconsistent⟩
    · rintro ⟨hlegal, hconsistent⟩
      exact hwell.exists_pinAll hlegal hconsistent

/-- Pins of a configuration property and of two binding properties, one of them given twice. -/
def repeatedPins : List (String × String) :=
  [("agent", "ie8"), ("debug", "false"), ("locale", "fr"), ("agent", "ie8")]

/-- The pins from the last to the first, and the same with a pin in front that one of them contradicts. -/
theorem browsers_pinAll_perm :
    browsers.Reachable ∧ repeatedPins.Perm repeatedPins.reverse ∧
      (∃ m', browsers.pinAll repeatedPins = .ok m' ∧ browsers.pinAll repeatedPins.reverse = .ok m' ∧
        m'.permutations.map (·.oracles.length) = [2]) ∧
      ¬∃ m', browsers.pinAll (("agent", "moz") :: repeatedPins).reverse = .ok m' := by
  have hp : ∀ pins : List (String × String), pins.reverse.Perm pins := fun pins => pins.reverse_perm
  refine ⟨browsers_reachable, (hp _).symm, ⟨_, rfl, ?_, by decide⟩, ?_⟩
  · exact ((pinAll_perm browsers_reachable (hp repeatedPins)).1 _).2 rfl
  · rw [(pinAll_perm browsers_reachable (hp (("agent", "moz") :: repeatedPins))).2.2]
    rintro ⟨-, hsame⟩
    have hagent := hsame ("agent", "moz") (by decide) ("agent", "ie8") (by decide) rfl
    exact absurd hagent (by decide)

end Model

end DeferredBinding
