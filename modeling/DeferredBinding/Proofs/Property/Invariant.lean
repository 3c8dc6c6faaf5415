import DeferredBinding.Proofs.Dict
import DeferredBinding.Property.Model
import Mathlib.Data.List.Nodup

/-!
# What holds of every model

`Model.Reachable` are the models that declarations and pins lead to from the empty one. A reachable model is well-formed
(`Model.Reachable.wellFormed`): no name is declared twice, and every binding property passes its own check. What a pin and a
list of pins do to a well-formed model is said once (`pin_eq_ok_iff`, `pinAll_eq_ok`), so that later proofs need not look into
the table they are written on.
-/

namespace DeferredBinding

/-! ## The check of one property -/

/-- What the check of a property asks for: values, none of them twice, and disjoint groups of its own values. -/
structure Binding.Valid (b : Binding) : Prop where
  nonempty : b.values ≠ []
  distinct : b.values.Nodup
  grouped_legal : ∀ v ∈ b.collapse.flatten, v ∈ b.values
  grouped_once : b.collapse.flatten.Nodup

namespace Binding

/-- A value is legal when it is listed. -/
theorem allows_eq_true_iff (b : Binding) (v : String) : b.allows v = true ↔ v ∈ b.values := by
  simp [allows]

/-- No element is found to repeat exactly when none repeats and none was seen before. -/
theorem firstRepeated?_eq_none_iff (seen l : List String) :
    firstRepeated? seen l = none ↔ l.Nodup ∧ ∀ v ∈ l, v ∉ seen := by
  induction l generalizing seen with
  | nil => simp [firstRepeated?]
  | cons a l ih =>
    simp only [firstRepeated?, List.contains_iff_mem]
    split
    · rename_i ha
      simp [ha]
    · rename_i ha
      rw [ih, List.nodup_cons]
      constructor
      · rintro ⟨hl, hs⟩
        refine ⟨⟨fun h => hs a h (List.mem_cons_self ..), hl⟩, ?_⟩
        intro v hv
        rcases List.mem_cons.1 hv with rfl | hv
        · exact ha
        · exact fun h => hs v hv (List.mem_cons_of_mem _ h)
      · rintro ⟨⟨hal, hl⟩, hs⟩
        refine ⟨hl, fun v hv h => ?_⟩
        rcases List.mem_cons.1 h with rfl | h
        · exact hal hv
        · exact hs v (List.mem_cons_of_mem _ hv) h

/-- The groups are accepted when their values are legal, none repeats and none was seen before. -/
theorem checkGroups_eq_ok_iff (b : Binding) (seen l : List String) :
    b.checkGroups seen l = .ok () ↔ (∀ v ∈ l, v ∈ b.values) ∧ l.Nodup ∧ ∀ v ∈ l, v ∉ seen := by
  induction l generalizing seen with
  | nil => simp [checkGroups]
  | cons a l ih =>
    simp only [checkGroups, Bool.not_eq_true', List.contains_iff_mem]
    split
    · rename_i ha
      have ha' : a ∉ b.values := by
        rw [← allows_eq_true_iff, ha]
        exact Bool.false_ne_true
      simp [ha']
    · rename_i ha
      have ha' : a ∈ b.values := by
        rw [← allows_eq_true_iff]
        simpa using ha
      split
      · rename_i hs
        simp [hs]
      · rename_i hs
        rw [ih, List.nodup_cons]
        constructor
        · rintro ⟨hv, hl, hn⟩
          refine ⟨?_, ⟨fun h => hn a h (List.mem_cons_self ..), hl⟩, ?_⟩
          · intro v h
            rcases List.mem_cons.1 h with rfl | h
            · exact ha'
            · exact hv v h
          · intro v h
            rcases List.mem_cons.1 h with rfl | h
            · exact hs
            · exact fun h' => hn v h (List.mem_cons_of_mem _ h')
        · rintro ⟨hv, ⟨hal, hl⟩, hn⟩
          refine ⟨fun v h => hv v (List.mem_cons_of_mem _ h), hl, fun v h h' => ?_⟩
          rcases List.mem_cons.1 h' with rfl | h'
          · exact hal h
          · exact hn v (List.mem_cons_of_mem _ h) h'

/-- The check accepts exactly the valid properties. -/
theorem check_eq_ok_iff (b : Binding) : b.check = .ok () ↔ b.Valid := by
  unfold check
  split
  · rename_i he
    have he' : b.values = [] := List.isEmpty_iff.1 he
    exact ⟨fun h => (nomatch h), fun h => absurd he' h.nonempty⟩
  · rename_i he
    have he' : b.values ≠ [] := fun h => he (List.isEmpty_iff.2 h)
    split
    · rename_i v hr
      refine ⟨fun h => (nomatch h), fun h => ?_⟩
      have hn := (firstRepeated?_eq_none_iff [] b.values).2 ⟨h.distinct, fun _ _ => List.not_mem_nil⟩
      rw [hn] at hr
      nomatch hr
    · rename_i hr
      have hd := ((firstRepeated?_eq_none_iff [] b.values).1 hr).1
      rw [checkGroups_eq_ok_iff]
      exact ⟨fun ⟨hl, ho, _⟩ => ⟨he', hd, hl, ho⟩, fun h => ⟨h.grouped_legal, h.grouped_once, fun _ _ => List.not_mem_nil⟩⟩

/-- A property with one value left is valid. -/
theorem narrowed_valid (b : Binding) (v : String) : (b.narrowed v).Valid :=
  ⟨by simp [narrowed], by simp [narrowed], by simp [narrowed], by simp [narrowed]⟩

/-- The property after a list of pins: the first pin of its name decides. -/
def pinnedBy (pins : List (String × String)) (b : Binding) : Binding :=
  match List.lookup b.name pins with
  | some value => b.narrowed value
  | none => b

/-- Pins keep the name of a property. -/
@[simp] theorem name_pinnedBy (pins : List (String × String)) (b : Binding) : (b.pinnedBy pins).name = b.name := by
  unfold pinnedBy
  split
  · rfl
  · rfl

/-- A property without a pin of its name stays as it is. -/
theorem pinnedBy_eq_self {pins : List (String × String)} {b : Binding} (h : List.lookup b.name pins = none) :
    b.pinnedBy pins = b := by
  rw [pinnedBy, h]

/-- A pinned property is left with the value of its pin. -/
theorem pinnedBy_eq_narrowed {pins : List (String × String)} {b : Binding} {value : String}
    (h : List.lookup b.name pins = some value) : b.pinnedBy pins = b.narrowed value := by
  rw [pinnedBy, h]

end Binding

/-! ## Names, legal pins and narrowing -/

namespace Model

/-- The models that declarations and pins lead to. A call that fails leaves the model as it is, so it adds none. -/
inductive Reachable : Model → Prop where
  | empty : Reachable .empty
  | addBinding {m m' : Model} {b : Binding} : Reachable m → m.addBinding b = .ok m' → Reachable m'
  | addConfiguration {m m' : Model} {c : Configuration} :
      Reachable m → m.addConfiguration c = .ok m' → Reachable m'
  | pin {m m' : Model} {name value : String} : Reachable m → m.pin name value = .ok m' → Reachable m'

/-- The declared names: binding properties, then configuration properties. -/
def names (m : Model) : List String :=
  m.bindings.map (·.name) ++ m.configurations.map (·.name)

/-- No name is declared twice, and every binding property is valid. -/
structure WellFormed (m : Model) : Prop where
  distinct : m.names.Nodup
  valid : ∀ b ∈ m.bindings, b.Valid

/-- A value is legal for a declared name: a binding property lists it, or it is the value of a configuration property. -/
def Legal (m : Model) (name value : String) : Prop :=
  (∃ b ∈ m.bindings, b.name = name ∧ value ∈ b.values) ∨ ∃ c ∈ m.configurations, c.name = name ∧ c.value = value

/-- The model with one value left to the binding property of a name. -/
def narrow (m : Model) (name value : String) : Model :=
  { m with bindings := m.bindings.map fun b => if b.name = name then b.narrowed value else b }

/-- A name is found to be declared exactly when it is one of the names. -/
theorem declares_eq_true_iff (m : Model) (name : String) : m.declares name = true ↔ name ∈ m.names := by
  simp [declares, binding?, configuration?, names]

/-- In a list of properties with different names, narrowing the first of a name narrows every one of that name. -/
theorem narrowFirst_eq_map {bs : List Binding} (h : (bs.map (·.name)).Nodup) (name value : String) :
    narrowFirst name value bs = bs.map fun b => if b.name = name then b.narrowed value else b := by
  induction bs with
  | nil => rfl
  | cons b bs ih =>
    rw [List.map_cons, List.nodup_cons] at h
    simp only [narrowFirst, List.map_cons]
    split
    · rename_i hb
      have hrest : ∀ c ∈ bs, c.name ≠ name := by
        intro c hc hn
        exact h.1 (List.mem_map.2 ⟨c, hc, hn.trans hb.symm⟩)
      have : (bs.map fun c => if c.name = name then c.narrowed value else c) = bs.map id :=
        List.map_congr_left fun c hc => if_neg (hrest c hc)
      rw [this, List.map_id]
    · rw [ih h.2]

/-- In a list with different keys, the first element found with a key is the one that has it. -/
theorem find?_key_eq_some_iff {α : Type} (key : α → String) {l : List α} (h : (l.map key).Nodup) (k : String) (a : α) :
    l.find? (fun x => key x == k) = some a ↔ a ∈ l ∧ key a = k := by
  constructor
  · intro ha
    exact ⟨List.mem_of_find?_eq_some ha, by simpa using List.find?_some ha⟩
  · rintro ⟨ha, rfl⟩
    cases hf : l.find? (fun x => key x == key a) with
    | none =>
      have hn := List.find?_eq_none.1 hf a ha
      simp at hn
    | some b =>
      have hb : b ∈ l := List.mem_of_find?_eq_some hf
      have hk : key b = key a := by simpa using List.find?_some hf
      rw [List.inj_on_of_nodup_map h hb ha hk]

/-- Of a well-formed model, the binding property found under a name is the one that has it. -/
theorem WellFormed.binding?_eq_some_iff {m : Model} (h : m.WellFormed) (name : String) (b : Binding) :
    m.binding? name = some b ↔ b ∈ m.bindings ∧ b.name = name :=
  find?_key_eq_some_iff Binding.name (List.nodup_append.1 h.distinct).1 name b

/-- Of a well-formed model, the configuration property found under a name is the one that has it. -/
theorem WellFormed.configuration?_eq_some_iff {m : Model} (h : m.WellFormed) (name : String) (c : Configuration) :
    m.configuration? name = some c ↔ c ∈ m.configurations ∧ c.name = name :=
  find?_key_eq_some_iff Configuration.name (List.nodup_append.1 h.distinct).2.1 name c

/-- Of a well-formed model, no name belongs to a binding property and to a configuration property. -/
theorem WellFormed.name_ne {m : Model} (h : m.WellFormed) {b : Binding} {c : Configuration} (hb : b ∈ m.bindings)
    (hc : c ∈ m.configurations) : b.name ≠ c.name :=
  (List.nodup_append.1 h.distinct).2.2 _ (List.mem_map_of_mem hb) _ (List.mem_map_of_mem hc)

/-- Narrowing keeps the names. -/
theorem names_narrow (m : Model) (name value : String) : (m.narrow name value).names = m.names := by
  have hb : ∀ b : Binding, (if b.name = name then b.narrowed value else b).name = b.name := by
    intro b
    split
    · rfl
    · rfl
  simp only [names, narrow, List.map_map, Function.comp_def, hb]

/-- Narrowing keeps a model well-formed. -/
theorem WellFormed.narrowed {m : Model} (h : m.WellFormed) (name value : String) : (m.narrow name value).WellFormed := by
  refine ⟨by rw [names_narrow]; exact h.distinct, ?_⟩
  intro b hb
  obtain ⟨b₀, hb₀, rfl⟩ := List.mem_map.1 hb
  split
  · exact b₀.narrowed_valid value
  · exact h.valid b₀ hb₀

/-! ## What each operation does -/

/-- A binding property is added when its name is new and it is valid. -/
theorem addBinding_eq_ok_iff (m m' : Model) (b : Binding) :
    m.addBinding b = .ok m' ↔ b.name ∉ m.names ∧ b.Valid ∧ m' = { m with bindings := m.bindings ++ [b] } := by
  rw [← declares_eq_true_iff, ← Binding.check_eq_ok_iff]
  unfold addBinding
  split
  · rename_i hd
    simp [hd]
  · rename_i hd
    split
    · rename_i e he
      simp [he]
    · rename_i u hu
      simp [hd, hu, eq_comm]

/-- A configuration property is added when its name is new. -/
theorem addConfiguration_eq_ok_iff (m m' : Model) (c : Configuration) :
    m.addConfiguration c = .ok m' ↔ c.name ∉ m.names ∧ m' = { m with configurations := m.configurations ++ [c] } := by
  rw [← declares_eq_true_iff]
  unfold addConfiguration
  split
  · rename_i hd
    simp [hd]
  · rename_i hd
    simp [hd, eq_comm]

/-- A name without a binding property narrows nothing. -/
theorem narrow_eq_self {m : Model} {name : String} (h : ∀ b ∈ m.bindings, b.name ≠ name) (value : String) :
    m.narrow name value = m := by
  have : (m.bindings.map fun b => if b.name = name then b.narrowed value else b) = m.bindings.map id :=
    List.map_congr_left fun b hb => if_neg (h b hb)
  rw [narrow, this, List.map_id]

/-- A pin of a well-formed model is accepted when its value is legal, and then narrows the property. -/
theorem WellFormed.pin_eq_ok_iff {m : Model} (h : m.WellFormed) (m' : Model) (name value : String) :
    m.pin name value = .ok m' ↔ m.Legal name value ∧ m' = m.narrow name value := by
  unfold pin
  split
  · rename_i c hc
    obtain ⟨hcm, rfl⟩ := (h.configuration?_eq_some_iff _ _).1 hc
    have hb : ∀ b ∈ m.bindings, b.name ≠ c.name := fun b hb => h.name_ne hb hcm
    have hl : m.Legal c.name value ↔ c.value = value := by
      constructor
      · rintro (⟨b, hbm, hbn, _⟩ | ⟨d, hd, hdn, hdv⟩)
        · exact absurd hbn (hb b hbm)
        · rw [← hdv, List.inj_on_of_nodup_map (List.nodup_append.1 h.distinct).2.1 hd hcm hdn]
      · exact fun hv => Or.inr ⟨c, hcm, rfl, hv⟩
    rw [hl, narrow_eq_self hb]
    split
    · rename_i hv
      simp [hv, eq_comm]
    · rename_i hv
      simp [hv]
  · rename_i hc
    have hnc : ∀ c ∈ m.configurations, c.name ≠ name := by
      intro c hcm hn
      rw [(h.configuration?_eq_some_iff name c).2 ⟨hcm, hn⟩] at hc
      nomatch hc
    split
    · rename_i hb
      refine ⟨fun h' => (nomatch h'), ?_⟩
      rintro ⟨⟨b, hbm, hbn, _⟩ | ⟨c, hcm, hcn, _⟩, _⟩
      · rw [(h.binding?_eq_some_iff name b).2 ⟨hbm, hbn⟩] at hb
        nomatch hb
      · exact absurd hcn (hnc c hcm)
    · rename_i b hb
      obtain ⟨hbm, rfl⟩ := (h.binding?_eq_some_iff _ _).1 hb
      have hnd : (m.bindings.map (·.name)).Nodup := (List.nodup_append.1 h.distinct).1
      have hl : m.Legal b.name value ↔ b.allows value = true := by
        rw [Binding.allows_eq_true_iff]
        constructor
        · rintro (⟨d, hd, hdn, hv⟩ | ⟨c, hcm, hcn, _⟩)
          · rw [← List.inj_on_of_nodup_map hnd hd hbm hdn]
            exact hv
          · exact absurd hcn (hnc c hcm)
        · exact fun hv => Or.inl ⟨b, hbm, rfl, hv⟩
      rw [hl, narrowFirst_eq_map hnd]
      split
      · rename_i hv
        rw [Except.ok.injEq, hv]
        exact ⟨fun he => ⟨rfl, he.symm⟩, fun ⟨_, he⟩ => he.symm⟩
      · rename_i hv
        simp [hv]

/-- Every reachable model is well-formed. -/
theorem Reachable.wellFormed {m : Model} (h : m.Reachable) : m.WellFormed := by
  induction h with
  | empty => exact ⟨List.nodup_nil, fun b hb => (nomatch hb)⟩
  | @addBinding m m' b _ ha ih =>
    obtain ⟨hn, hv, rfl⟩ := (addBinding_eq_ok_iff m m' b).1 ha
    refine ⟨?_, ?_⟩
    · have hp : ((m.bindings ++ [b]).map (·.name) ++ m.configurations.map (·.name)).Perm (b.name :: m.names) := by
        rw [List.map_append, List.append_assoc]
        exact List.perm_middle
      exact hp.nodup_iff.2 (List.nodup_cons.2 ⟨hn, ih.distinct⟩)
    · intro d hd
      rcases List.mem_append.1 hd with hd | hd
      · exact ih.valid d hd
      · rw [List.mem_singleton.1 hd]
        exact hv
  | @addConfiguration m m' c _ ha ih =>
    obtain ⟨hn, rfl⟩ := (addConfiguration_eq_ok_iff m m' c).1 ha
    refine ⟨?_, ih.valid⟩
    have hp : (m.bindings.map (·.name) ++ (m.configurations ++ [c]).map (·.name)).Perm (c.name :: m.names) := by
      rw [List.map_append, ← List.append_assoc]
      exact List.perm_append_singleton _ _
    exact hp.nodup_iff.2 (List.nodup_cons.2 ⟨hn, ih.distinct⟩)
  | @pin m m' name value _ hp ih =>
    obtain ⟨_, rfl⟩ := (ih.pin_eq_ok_iff m' name value).1 hp
    exact ih.narrowed name value

/-! ## Lists of pins -/

/-- A list of pins is applied when the first is accepted and the rest are applied after it. -/
theorem pinAll_cons_eq_ok_iff (m m' : Model) (name value : String) (pins : List (String × String)) :
    m.pinAll ((name, value) :: pins) = .ok m' ↔ ∃ m₁, m.pin name value = .ok m₁ ∧ m₁.pinAll pins = .ok m' := by
  simp only [pinAll, List.foldlM_cons]
  cases m.pin name value with
  | error e => exact ⟨fun h => (nomatch h), fun ⟨_, h, _⟩ => (nomatch h)⟩
  | ok m₁ => exact ⟨fun h => ⟨m₁, rfl, h⟩, fun ⟨_, h, h'⟩ => Except.ok.inj h ▸ h'⟩

/-- Pins lead from a reachable model to a reachable one. -/
theorem Reachable.of_pinAll {m m' : Model} (h : m.Reachable) {pins : List (String × String)} (hp : m.pinAll pins = .ok m') :
    m'.Reachable := by
  induction pins generalizing m with
  | nil => exact Except.ok.inj hp ▸ h
  | cons p pins ih =>
    obtain ⟨m₁, hm₁, hrest⟩ := (pinAll_cons_eq_ok_iff m m' p.1 p.2 pins).1 hp
    exact ih (h.pin hm₁) hrest

/-- Of a well-formed model, the legal values of a name are those of the one property that has it. -/
theorem WellFormed.legal_binding_iff {m : Model} (h : m.WellFormed) {b : Binding} (hb : b ∈ m.bindings) (value : String) :
    m.Legal b.name value ↔ value ∈ b.values := by
  constructor
  · rintro (⟨d, hd, hdn, hv⟩ | ⟨c, hc, hcn, _⟩)
    · rw [← List.inj_on_of_nodup_map (List.nodup_append.1 h.distinct).1 hd hb hdn]
      exact hv
    · exact absurd hcn.symm (h.name_ne hb hc)
  · exact fun hv => Or.inl ⟨b, hb, rfl, hv⟩

/-- What is legal after a narrowing was legal before it, if the value narrowed to was. -/
theorem Legal.of_narrow {m : Model} {name value n v : String} (hl : m.Legal name value)
    (h : (m.narrow name value).Legal n v) : m.Legal n v := by
  rcases h with ⟨b, hb, hbn, hv⟩ | hc
  · obtain ⟨b₀, hb₀, rfl⟩ := List.mem_map.1 hb
    split at hbn
    · rename_i hn
      rw [if_pos hn] at hv
      have hvn : v = value := by simpa [Binding.narrowed] using hv
      have hnn : n = name := hbn.symm.trans hn
      rw [hvn, hnn]
      exact hl
    · rename_i hn
      rw [if_neg hn] at hv
      exact Or.inl ⟨b₀, hb₀, hbn, hv⟩
  · exact Or.inr hc

/-- After a narrowing the value narrowed to is the only legal one of its name. -/
theorem WellFormed.eq_of_legal_narrow {m : Model} (h : m.WellFormed) {name value v : String} (hl : m.Legal name value)
    (hv : (m.narrow name value).Legal name v) : v = value := by
  rcases hl with ⟨b, hb, rfl, _⟩ | ⟨c, hc, rfl, rfl⟩
  · have hb' : b.narrowed value ∈ (m.narrow b.name value).bindings := List.mem_map.2 ⟨b, hb, if_pos rfl⟩
    have := ((h.narrowed b.name value).legal_binding_iff hb' v).1 hv
    simpa [Binding.narrowed] using this
  · rcases hv with ⟨b, hb, hbn, _⟩ | ⟨d, hd, hdn, rfl⟩
    · exact absurd hbn ((h.narrowed c.name c.value).name_ne hb hc)
    · rw [List.inj_on_of_nodup_map (List.nodup_append.1 h.distinct).2.1 hd hc hdn]

/-- Pins that a well-formed model accepts in order are legal for it and give no name two values; what they leave of each
binding property depends on the pins of its name only. -/
theorem WellFormed.pinAll_eq_ok {m m' : Model} (h : m.WellFormed) {pins : List (String × String)}
    (hp : m.pinAll pins = .ok m') :
    (∀ p ∈ pins, m.Legal p.1 p.2) ∧ (∀ p ∈ pins, ∀ q ∈ pins, p.1 = q.1 → p.2 = q.2) ∧
      m' = { m with bindings := m.bindings.map (Binding.pinnedBy pins) } := by
  induction pins generalizing m with
  | nil =>
    have hm : m = m' := Except.ok.inj hp
    have hid : m.bindings.map (Binding.pinnedBy []) = m.bindings.map id :=
      List.map_congr_left fun b _ => Binding.pinnedBy_eq_self rfl
    rw [hid, List.map_id, ← hm]
    exact ⟨fun p hp => (nomatch hp), fun p hp => (nomatch hp), rfl⟩
  | cons a pins ih =>
    obtain ⟨name, value⟩ := a
    obtain ⟨m₁, hm₁, hrest⟩ := (pinAll_cons_eq_ok_iff m m' name value pins).1 hp
    obtain ⟨hl, rfl⟩ := (h.pin_eq_ok_iff m₁ name value).1 hm₁
    obtain ⟨hlegal, hagree, hm'⟩ := ih (h.narrowed name value) hrest
    -- the later pins of the name give it the value it was narrowed to
    have hsame : ∀ q ∈ pins, q.1 = name → q.2 = value := by
      rintro ⟨n, v⟩ hq rfl
      exact h.eq_of_legal_narrow hl (hlegal (n, v) hq)
    refine ⟨?_, ?_, ?_⟩
    · intro p hp
      rcases List.mem_cons.1 hp with rfl | hp
      · exact hl
      · exact hl.of_narrow (hlegal p hp)
    · intro p hp q hq hpq
      rcases List.mem_cons.1 hp with rfl | hp
      · rcases List.mem_cons.1 hq with rfl | hq
        · rfl
        · exact (hsame q hq hpq.symm).symm
      · rcases List.mem_cons.1 hq with rfl | hq
        · exact hsame p hp hpq
        · exact hagree p hp q hq hpq
    · rw [hm']
      simp only [narrow, List.map_map, Model.mk.injEq, and_true]
      refine List.map_congr_left fun b _ => ?_
      simp only [Function.comp_apply]
      by_cases hb : b.name = name
      · have hlook : List.lookup b.name ((name, value) :: pins) = some value := by simp [hb]
        rw [if_pos hb, Binding.pinnedBy_eq_narrowed hlook]
        cases hr : List.lookup b.name pins with
        | none => exact Binding.pinnedBy_eq_self hr
        | some v =>
          have hv : v = value := hsame _ (mem_of_lookup_eq_some hr) hb
          rw [Binding.pinnedBy_eq_narrowed (b := b.narrowed value) hr, hv]
          rfl
      · have hlook : List.lookup b.name ((name, value) :: pins) = List.lookup b.name pins := by
          simp [List.lookup_cons, beq_eq_false_iff_ne.2 hb]
        rw [if_neg hb, Binding.pinnedBy, Binding.pinnedBy, hlook]

end Model

end DeferredBinding
