import DeferredBinding.Link.Run
import DeferredBinding.Proofs.Property.Invariant

/-!
# What a link knows of a module

The properties that a link sees are those of the model (`get?_of_mem_bindings`, `get?_of_mem_configurations`). Legal pins
are always accepted, and decide a property by the last pin of its name (`pinAll_eq_ok`). A link reaches the combinations that
agree with what is decided (`reaches_iff_agrees`), and a permutation is led to by their selections (`selectionsFor_eq_ok`), which
are read off by `get?_selection`.
-/

namespace DeferredBinding

/-! ## The properties of a model -/

/-- What a link sees under a name: a configuration property, or else a binding property. -/
theorem Model.get?_selectionProperties (m : Model) (name : String) :
    m.selectionProperties.get? name =
      (List.lookup name (m.configurations.map fun c => (c.name, SelectionProperty.ofConfiguration c)).reverse).or
        (List.lookup name (m.bindings.map fun b => (b.name, SelectionProperty.ofBinding b)).reverse) := by
  have hb : m.bindings.foldl (fun d b => d.insert b.name (SelectionProperty.ofBinding b)) Dict.empty =
      (m.bindings.map fun b => (b.name, SelectionProperty.ofBinding b)).foldl (fun d p => d.insert p.1 p.2) Dict.empty := by
    rw [List.foldl_map]
  have hc : ∀ d : Dict SelectionProperty,
      m.configurations.foldl (fun d c => d.insert c.name (SelectionProperty.ofConfiguration c)) d =
        (m.configurations.map fun c => (c.name, SelectionProperty.ofConfiguration c)).foldl (fun d p => d.insert p.1 p.2) d := by
    intro d
    rw [List.foldl_map]
  rw [selectionProperties, hc, hb, Dict.get?_foldl_insert, Dict.get?_foldl_insert, Dict.get?_empty, Option.or_none]

namespace LinkContext

variable {m : Model}

/-- A binding property of a well-formed model is seen under its name. -/
theorem get?_of_mem_bindings (h : m.WellFormed) {b : Binding} (hb : b ∈ m.bindings) :
    m.selectionProperties.get? b.name = some (.ofBinding b) := by
  have hnone : List.lookup b.name (m.configurations.map fun c => (c.name, SelectionProperty.ofConfiguration c)).reverse =
      none := by
    rw [List.lookup_eq_none_iff]
    intro p hp
    obtain ⟨c, hc, rfl⟩ := List.mem_map.1 (List.mem_reverse.1 hp)
    simpa using h.name_ne hb hc
  have hkeys : ((m.bindings.map fun b => (b.name, SelectionProperty.ofBinding b)).reverse.map (·.1)).Nodup := by
    rw [List.map_reverse, List.nodup_reverse, List.map_map]
    exact (List.nodup_append.1 h.distinct).1
  rw [m.get?_selectionProperties, hnone, Option.none_or]
  exact lookup_eq_some_of_mem hkeys (List.mem_reverse.2 (List.mem_map.2 ⟨b, hb, rfl⟩))

/-- A configuration property of a well-formed model is seen under its name. -/
theorem get?_of_mem_configurations (h : m.WellFormed) {c : Configuration} (hc : c ∈ m.configurations) :
    m.selectionProperties.get? c.name = some (.ofConfiguration c) := by
  have hkeys : ((m.configurations.map fun c => (c.name, SelectionProperty.ofConfiguration c)).reverse.map (·.1)).Nodup := by
    rw [List.map_reverse, List.nodup_reverse, List.map_map]
    exact (List.nodup_append.1 h.distinct).2.1
  have hsome := lookup_eq_some_of_mem hkeys (List.mem_reverse.2 (List.mem_map.2 ⟨c, hc, rfl⟩))
  rw [m.get?_selectionProperties, hsome, Option.some_or]

/-- A legal pin of a well-formed model is one that the link sees as legal. -/
theorem allows_of_legal (h : m.WellFormed) {name value : String} (hl : m.Legal name value) :
    ∃ q, m.selectionProperties.get? name = some q ∧ q.allows value = true := by
  rcases hl with ⟨b, hb, rfl, hv⟩ | ⟨c, hc, rfl, rfl⟩
  · exact ⟨_, get?_of_mem_bindings h hb, List.contains_iff_mem.2 hv⟩
  · exact ⟨_, get?_of_mem_configurations h hc, List.contains_iff_mem.2 (List.mem_singleton.2 rfl)⟩

/-! ## Pins -/

/-- A property after a list of pins: the last pin of its name decides it. -/
def decidedBy (pins : List (String × String)) (name : String) (q : SelectionProperty) : SelectionProperty :=
  { q with staticValue := (List.lookup name pins.reverse).or q.staticValue }

/-- A legal pin is accepted and decides its property. -/
theorem pin_eq_ok {c : LinkContext} {name value : String} {q : SelectionProperty} (hq : c.property? name = some q)
    (hv : q.allows value = true) :
    c.pin name value = .ok { c with properties := c.properties.insert name { q with staticValue := some value } } := by
  rw [pin, hq]
  simp only [hv, if_true]

/-- Legal pins are accepted, and a property is decided by the last pin of its name. -/
theorem pinAll_eq_ok {c : LinkContext} {pins : List (String × String)}
    (h : ∀ p ∈ pins, ∃ q, c.property? p.1 = some q ∧ q.allows p.2 = true) :
    ∃ ps : Dict SelectionProperty, c.pinAll pins = .ok { c with properties := ps } ∧
      ∀ name, ps.get? name = (c.property? name).map (decidedBy pins name) := by
  induction pins generalizing c with
  | nil =>
    refine ⟨c.properties, rfl, fun name => ?_⟩
    rw [property?]
    cases c.properties.get? name with
    | none => rfl
    | some q => rfl
  | cons p pins ih =>
    obtain ⟨n, v⟩ := p
    obtain ⟨q, hq, hv⟩ := h (n, v) (List.mem_cons_self ..)
    have hpin := pin_eq_ok hq hv
    generalize hc₁ : ({ c with properties := c.properties.insert n { q with staticValue := some v } } : LinkContext) = c₁ at hpin
    have hprop : ∀ name, c₁.property? name = if name = n then some { q with staticValue := some v } else c.property? name := by
      intro name
      rw [← hc₁]
      exact Dict.get?_insert ..
    have hrest : ∀ p ∈ pins, ∃ q, c₁.property? p.1 = some q ∧ q.allows p.2 = true := by
      intro p hp
      obtain ⟨q', hq', hv'⟩ := h p (List.mem_cons_of_mem _ hp)
      rw [hprop]
      split
      · rename_i hn
        rw [hn, hq] at hq'
        exact ⟨_, rfl, (Option.some.inj hq') ▸ hv'⟩
      · exact ⟨q', hq', hv'⟩
    obtain ⟨ps, hps, hget⟩ := ih hrest
    refine ⟨ps, ?_, ?_⟩
    · rw [← hc₁] at hps
      simp only [pinAll, List.foldlM_cons, hpin]
      rw [← hc₁]
      exact hps
    · intro name
      rw [hget, hprop]
      by_cases hn : name = n
      · subst hn
        rw [if_pos rfl, hq]
        simp [decidedBy, List.lookup_append]
      · rw [if_neg hn]
        cases c.property? name with
        | none => rfl
        | some q' => simp [decidedBy, List.lookup_append, List.lookup_cons, beq_eq_false_iff_ne.2 hn]

/-! ## Reachable combinations and their open parts -/

/-- A combination agrees with what a link has decided: no answer of it is another value than the decided one. -/
def Agrees (c : LinkContext) (o : Oracle) : Prop :=
  ∀ a ∈ o.pairs, ∀ fixed ∈ c.static? a.1, a.2 = fixed

instance (c : LinkContext) (o : Oracle) : Decidable (c.Agrees o) :=
  inferInstanceAs (Decidable (∀ a ∈ o.pairs, ∀ fixed ∈ c.static? a.1, a.2 = fixed))

/-- The combinations that a link reaches are those that agree with what it has decided. -/
theorem reaches_iff_agrees (c : LinkContext) (o : Oracle) : c.reaches o = true ↔ c.Agrees o := by
  rw [reaches, List.all_eq_true]
  refine forall_congr' fun a => forall_congr' fun _ => ?_
  cases c.static? a.1 with
  | none => simp
  | some fixed =>
    simp only [beq_iff_eq, Option.mem_some_iff, forall_eq']
    exact eq_comm

/-- A combination is reachable when it agrees with every decided property that it answers for. -/
theorem reaches_eq_true_iff (c : LinkContext) {o : Oracle} (hd : (o.pairs.map (·.1)).Nodup) :
    c.reaches o = true ↔ ∀ name fixed value, c.static? name = some fixed → o.valueOf? name = some value → value = fixed := by
  rw [reaches_iff_agrees]
  constructor
  · intro h name fixed value hs hv
    exact h (name, value) (mem_of_lookup_eq_some hv) fixed hs
  · rintro h ⟨name, value⟩ hp fixed hs
    exact h name fixed value hs (lookup_eq_some_of_mem hd hp)

/-- The selection that a combination belongs to: its answers for properties that are not decided. -/
def selection (c : LinkContext) (o : Oracle) : Selection :=
  Dict.ofList (o.pairs.filter fun p => (c.static? p.1).isNone)

/-- The selection of a combination gives its answer for a property that is not decided, and none for a decided one. -/
theorem get?_selection (c : LinkContext) {o : Oracle} (hd : (o.pairs.map (·.1)).Nodup) (name : String) :
    (c.selection o).get? name = if (c.static? name).isNone then o.valueOf? name else none := by
  have hd' : ((o.pairs.filter fun p => (c.static? p.1).isNone).map (·.1)).Nodup :=
    (List.filter_sublist.map _).nodup hd
  rw [selection, Dict.get?_ofList, lookup_reverse hd', lookup_filter_key (fun n => (c.static? n).isNone)]
  rfl

/-- The open part of legal answers is taken over answer by answer. -/
theorem openFrom_eq_ok {c : LinkContext} {pairs : List (String × String)}
    (h : ∀ p ∈ pairs, ∃ q, c.property? p.1 = some q ∧ q.allows p.2 = true) (s : Selection) :
    c.openFrom s pairs =
      .ok ((pairs.filter fun p => (c.static? p.1).isNone).foldl (fun d p => d.insert p.1 p.2) s) := by
  induction pairs generalizing s with
  | nil => rfl
  | cons p pairs ih =>
    obtain ⟨n, v⟩ := p
    obtain ⟨q, hq, hv⟩ := h (n, v) (List.mem_cons_self ..)
    have hrest := ih fun p hp => h p (List.mem_cons_of_mem _ hp)
    have hstatic : c.static? n = q.staticValue := by rw [static?, hq, Option.bind_some]
    rw [openFrom, hq]
    cases hs : q.staticValue with
    | none => simp [hv, hrest, hstatic, hs]
    | some fixed => simp [hrest, hstatic, hs]

/-- The selections of a permutation: those of the combinations that agree with what is decided. -/
def selections (c : LinkContext) (p : Permutation) : List Selection :=
  (p.oracles.filter fun o => c.Agrees o).map c.selection

/-- The selections of a permutation are those of the combinations that the link reaches. -/
theorem selections_eq (c : LinkContext) (p : Permutation) :
    c.selections p = (p.oracles.filter c.reaches).map c.selection := by
  refine congrArg (List.map c.selection) (List.filter_congr fun o _ => ?_)
  rw [Bool.eq_iff_iff, decide_eq_true_iff]
  exact (c.reaches_iff_agrees o).symm

/-- A permutation with legal answers is led to by its selections. -/
theorem selectionsFor_eq_ok {c : LinkContext} {p : Permutation}
    (h : ∀ o ∈ p.oracles, ∀ a ∈ o.pairs, ∃ q, c.property? a.1 = some q ∧ q.allows a.2 = true) :
    Linking.selectionsFor c p = .ok (c.selections p) := by
  rw [selections_eq]
  refine mapM_eq_pure fun o ho => ?_
  exact openFrom_eq_ok (h o (List.mem_filter.1 ho).1) .empty

end LinkContext

end DeferredBinding
