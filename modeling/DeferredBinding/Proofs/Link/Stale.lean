import DeferredBinding.Proofs.Link.Gathered

/-!
# Stale records

A record that was made for another state of its module may give answers that the module no longer has. A link looks at the
combinations that are served, which contradict nothing that is decided, and fails with the first complaint there is about them
(`perform_link_of_complaints`). So no served combination of a link that succeeds gives an undeclared name or an illegal value
(`link_detects_stale`). A combination that is not served is dropped unseen, whatever it says (`dropped_answer_undeclared`).
-/

namespace DeferredBinding

/-! ## Steps that report a list of complaints -/

/-- A step fails with the first of a list of complaints, and succeeds if there is none. -/
def Reports {ε α : Type} (x : Except ε α) : List ε → Prop
  | [] => ∃ a, x = .ok a
  | e :: _ => x = .error e

/-- The failure of a step, if it fails. -/
def failures {ε α : Type} : Except ε α → List ε
  | .ok _ => []
  | .error e => [e]

theorem reports_failures {ε α : Type} (x : Except ε α) : Reports x (failures x) := by
  cases x with
  | ok a => exact ⟨a, rfl⟩
  | error e => rfl

/-- A step that succeeds has no complaints. -/
theorem Reports.eq_nil {ε α : Type} {x : Except ε α} {l : List ε} (h : Reports x l) {a : α} (hx : x = .ok a) : l = [] := by
  cases l with
  | nil => rfl
  | cons e l => cases hx.symm.trans h

/-- Two steps report the complaints of the first and then those of the second. -/
theorem Reports.bind {ε α β : Type} {x : Except ε α} {f : α → Except ε β} {l l' : List ε} (h : Reports x l)
    (hf : ∀ a, x = .ok a → Reports (f a) l') : Reports (x >>= f) (l ++ l') := by
  cases l with
  | nil =>
    obtain ⟨a, ha⟩ := h
    rw [ha]
    exact hf a ha
  | cons e l =>
    have hx : x = .error e := h
    rw [hx]
    rfl

/-- A step that is taken for each element of a list reports the complaints of the elements in order. -/
theorem reports_mapM {ε α β : Type} {f : α → Except ε β} {complaints : α → List ε} {l : List α}
    (h : ∀ a ∈ l, Reports (f a) (complaints a)) : Reports (l.mapM f) (l.flatMap complaints) := by
  induction l with
  | nil => exact ⟨[], rfl⟩
  | cons a l ih =>
    obtain ⟨ha, hl⟩ := List.forall_mem_cons.1 h
    rw [List.mapM_cons, List.flatMap_cons]
    refine ha.bind fun b _ => ?_
    have hrest : Reports (l.mapM f >>= fun bs => (.ok (b :: bs) : Except ε (List β))) (l.flatMap complaints ++ []) :=
      (ih hl).bind fun bs _ => ⟨_, rfl⟩
    rw [List.append_nil] at hrest
    exact hrest

/-- Two steps of a program report the complaints of the first and then those of the second. -/
theorem reports_perform_bind {α β : Type} {x : ExceptT LinkError (StateM Machine) α}
    {f : α → ExceptT LinkError (StateM Machine) β} {s : Machine} {l l' : List LinkError} (h : Reports (perform x s).1 l)
    (hf : ∀ a s', perform x s = (.ok a, s') → Reports (perform (f a) s').1 l') : Reports (perform (x >>= f) s).1 (l ++ l') := by
  rw [perform_bind]
  split
  · rename_i a s' hx
    rw [hx] at h
    rw [h.eq_nil rfl]
    exact hf a s' hx
  · rename_i e s' hx
    rw [hx] at h
    cases l with
    | nil =>
      obtain ⟨a, ha⟩ := h
      cases ha
    | cons e' l =>
      cases h
      rfl

/-- A step that cannot fail adds no complaint. -/
theorem reports_perform_bind_sure {α β : Type} {x : ExceptT LinkError (StateM Machine) α}
    {f : α → ExceptT LinkError (StateM Machine) β} {s : Machine} {l : List LinkError} (h : Reports (perform x s).1 l)
    (hf : ∀ a s', ∃ b, (perform (f a) s').1 = .ok b) : Reports (perform (x >>= f) s).1 l := by
  have hboth : Reports (perform (x >>= f) s).1 (l ++ []) := reports_perform_bind h fun a s' _ => hf a s'
  rw [List.append_nil] at hboth
  exact hboth

/-! ## Served combinations, and what there is to object to them -/

namespace Model

/-- The value that a property has without a pin: a configuration property has one, and a binding property with one value. -/
def fixed? (m : Model) (name : String) : Option String :=
  ((m.configuration? name).map (·.value)).or ((m.binding? name).bind (·.staticValue?))

/-- The value that a property is decided to have: the last pin of its name decides. -/
def decided? (m : Model) (pins : List (String × String)) (name : String) : Option String :=
  (List.lookup name pins.reverse).or (m.fixed? name)

/-- A combination is served if it contradicts nothing that is decided. -/
def Serves (m : Model) (pins : List (String × String)) (o : Oracle) : Prop :=
  ∀ a ∈ o.pairs, ∀ fixed ∈ m.decided? pins a.1, a.2 = fixed

instance (m : Model) (pins : List (String × String)) (o : Oracle) : Decidable (m.Serves pins o) :=
  inferInstanceAs (Decidable (∀ a ∈ o.pairs, ∀ fixed ∈ m.decided? pins a.1, a.2 = fixed))

instance (m : Model) (name value : String) : Decidable (m.Legal name value) :=
  inferInstanceAs (Decidable ((∃ b ∈ m.bindings, b.name = name ∧ value ∈ b.values) ∨
    ∃ c ∈ m.configurations, c.name = name ∧ c.value = value))

/-- The objection to an answer that names no property, or a value that is not legal. -/
def objection? (m : Model) (a : String × String) : Option LinkError :=
  if a.1 ∉ m.names then some (.unknownProperty a.1)
  else if m.Legal a.1 a.2 then none
  else some (.illegalValue a.1 a.2)

/-- The objections to the answers of a permutation, in order. Only served combinations are looked at. -/
def objections (m : Model) (pins : List (String × String)) (p : Permutation) : List LinkError :=
  (p.oracles.filter fun o => m.Serves pins o).flatMap fun o => o.pairs.filterMap m.objection?

/-- A legal value is one of a declared property. -/
theorem Legal.mem_names {m : Model} {name value : String} (h : m.Legal name value) : name ∈ m.names := by
  rcases h with ⟨b, hb, rfl, -⟩ | ⟨c, hc, rfl, -⟩
  · exact List.mem_append_left _ (List.mem_map_of_mem hb)
  · exact List.mem_append_right _ (List.mem_map_of_mem hc)

/-- There is no objection to an answer exactly if it is legal. -/
theorem objection?_eq_none_iff (m : Model) (a : String × String) : m.objection? a = none ↔ m.Legal a.1 a.2 := by
  unfold objection?
  split
  · rename_i hname
    exact ⟨nofun, fun hlegal => absurd hlegal.mem_names hname⟩
  · split
    · rename_i hlegal
      exact ⟨fun _ => hlegal, fun _ => rfl⟩
    · rename_i hlegal
      exact ⟨nofun, fun h => absurd h hlegal⟩

/-- There are no objections to a permutation exactly if the answers of its served combinations are legal. -/
theorem objections_eq_nil_iff (m : Model) (pins : List (String × String)) (p : Permutation) :
    m.objections pins p = [] ↔ ∀ o ∈ p.oracles, m.Serves pins o → ∀ a ∈ o.pairs, m.Legal a.1 a.2 := by
  simp [objections, List.flatMap_eq_nil_iff, List.filterMap_eq_nil_iff, objection?_eq_none_iff]

/-- What a link sees is declared. -/
theorem mem_names_of_get? {m : Model} {name : String} {q : SelectionProperty} (h : m.selectionProperties.get? name = some q) :
    name ∈ m.names := by
  rw [m.get?_selectionProperties, Option.or_eq_some_iff] at h
  rcases h with hq | ⟨-, hq⟩
  · obtain ⟨c, hc, hcq⟩ := List.mem_map.1 (List.mem_reverse.1 (mem_of_lookup_eq_some hq))
    exact List.mem_append_right _ (List.mem_map.2 ⟨c, hc, (Prod.mk.inj hcq).1⟩)
  · obtain ⟨b, hb, hbq⟩ := List.mem_map.1 (List.mem_reverse.1 (mem_of_lookup_eq_some hq))
    exact List.mem_append_left _ (List.mem_map.2 ⟨b, hb, (Prod.mk.inj hbq).1⟩)

/-- What is declared is what a link sees. -/
theorem WellFormed.exists_get? {m : Model} (h : m.WellFormed) {name : String} (hname : name ∈ m.names) :
    ∃ q, m.selectionProperties.get? name = some q := by
  rcases List.mem_append.1 hname with hname | hname
  · obtain ⟨b, hb, rfl⟩ := List.mem_map.1 hname
    exact ⟨_, LinkContext.get?_of_mem_bindings h hb⟩
  · obtain ⟨c, hc, rfl⟩ := List.mem_map.1 hname
    exact ⟨_, LinkContext.get?_of_mem_configurations h hc⟩

/-- The value that a declared property has without a pin is the one that a link sees. -/
theorem WellFormed.staticValue_eq {m : Model} (h : m.WellFormed) {name : String} {q : SelectionProperty}
    (hq : m.selectionProperties.get? name = some q) : q.staticValue = m.fixed? name := by
  rcases List.mem_append.1 (mem_names_of_get? hq) with hname | hname
  · obtain ⟨b, hb, rfl⟩ := List.mem_map.1 hname
    have hnone : m.configuration? b.name = none := by
      rw [configuration?, List.find?_eq_none]
      intro c hc he
      exact h.name_ne hb hc (beq_iff_eq.1 he).symm
    obtain rfl := Option.some.inj (hq.symm.trans (LinkContext.get?_of_mem_bindings h hb))
    rw [fixed?, hnone, (h.binding?_eq_some_iff b.name b).2 ⟨hb, rfl⟩]
    rfl
  · obtain ⟨c, hc, rfl⟩ := List.mem_map.1 hname
    obtain rfl := Option.some.inj (hq.symm.trans (LinkContext.get?_of_mem_configurations h hc))
    rw [fixed?, (h.configuration?_eq_some_iff c.name c).2 ⟨hc, rfl⟩]
    rfl

/-- A name that is not declared has no value. -/
theorem fixed?_eq_none {m : Model} {name : String} (h : name ∉ m.names) : m.fixed? name = none := by
  rw [← declares_eq_true_iff, declares] at h
  simp only [Bool.or_eq_true, not_or, Option.not_isSome_iff_eq_none] at h
  rw [fixed?, h.1, h.2]
  rfl

/-- The value that a property has without a pin is legal. -/
theorem WellFormed.legal_fixed {m : Model} (h : m.WellFormed) {name value : String} (hv : m.fixed? name = some value) :
    m.Legal name value := by
  rcases Option.or_eq_some_iff.1 hv with hv | ⟨-, hv⟩
  · obtain ⟨c, hc, hvalue⟩ := Option.map_eq_some_iff.1 hv
    obtain ⟨hmem, hname⟩ := (h.configuration?_eq_some_iff name c).1 hc
    exact Or.inr ⟨c, hmem, hname, hvalue⟩
  · obtain ⟨b, hb, hstatic⟩ := Option.bind_eq_some_iff.1 hv
    obtain ⟨hmem, hname⟩ := (h.binding?_eq_some_iff name b).1 hb
    refine Or.inl ⟨b, hmem, hname, ?_⟩
    unfold Binding.staticValue? at hstatic
    split at hstatic
    · rename_i only honly
      rw [honly]
      exact List.mem_singleton.2 (Option.some.inj hstatic).symm
    · nomatch hstatic

end Model

/-! ## What a prepared link knows -/

namespace LinkContext

/-- A context knows the properties of a model with pins: their names, their legal values and what is decided. -/
structure Knows (c : LinkContext) (m : Model) (pins : List (String × String)) : Prop where
  declared : ∀ name, c.property? name = none ↔ name ∉ m.names
  legal : ∀ name q value, c.property? name = some q → (q.allows value = true ↔ m.Legal name value)
  decided : ∀ name, c.static? name = m.decided? pins name
  decided_legal : ∀ name value, c.static? name = some value → m.Legal name value

variable {c : LinkContext} {m : Model} {pins : List (String × String)} (hknows : c.Knows m pins)
include hknows

/-- A context finds the combinations reachable that are served. -/
theorem Knows.reaches_iff (o : Oracle) : c.reaches o = true ↔ m.Serves pins o := by
  rw [c.reaches_iff_agrees]
  unfold Agrees Model.Serves
  simp only [hknows.decided]

/-- The open part of answers that contradict nothing decided is refused with the first objection to them. -/
theorem Knows.reports_openFrom {pairs : List (String × String)}
    (hserved : ∀ a ∈ pairs, ∀ fixed ∈ m.decided? pins a.1, a.2 = fixed) (s : Selection) :
    Reports (c.openFrom s pairs) (pairs.filterMap m.objection?) := by
  induction pairs generalizing s with
  | nil => exact ⟨s, rfl⟩
  | cons a pairs ih =>
    obtain ⟨name, value⟩ := a
    obtain ⟨hfirst, hrest⟩ := List.forall_mem_cons.1 hserved
    unfold openFrom
    cases hq : c.property? name with
    | none =>
      have hobjection : m.objection? (name, value) = some (.unknownProperty name) :=
        if_pos ((hknows.declared name).1 hq)
      rw [List.filterMap_cons_some hobjection]
      rfl
    | some q =>
      have hname : name ∈ m.names := by
        by_contra hname
        rw [(hknows.declared name).2 hname] at hq
        cases hq
      have hstatic : c.static? name = q.staticValue := by rw [static?, hq, Option.bind_some]
      cases hs : q.staticValue with
      | some fixed =>
        -- a decided value is legal, and the answer is that value
        have hlegal : m.Legal name value := by
          rw [hs] at hstatic
          have hvalue : value = fixed := hfirst fixed (hknows.decided name ▸ hstatic)
          exact hvalue ▸ hknows.decided_legal name fixed hstatic
        rw [List.filterMap_cons_none ((m.objection?_eq_none_iff (name, value)).2 hlegal)]
        simp only [hs, Option.isSome_some, if_true]
        exact ih hrest s
      | none =>
        simp only [hs, Option.isSome_none, Bool.false_eq_true, if_false]
        by_cases hlegal : m.Legal name value
        · rw [List.filterMap_cons_none ((m.objection?_eq_none_iff (name, value)).2 hlegal),
            if_pos ((hknows.legal name q value hq).2 hlegal)]
          exact ih hrest _
        · have hobjection : m.objection? (name, value) = some (.illegalValue name value) := by
            rw [Model.objection?, if_neg (not_not.2 hname), if_neg hlegal]
          rw [List.filterMap_cons_some hobjection, if_neg (mt (hknows.legal name q value hq).1 hlegal)]
          rfl

/-- The selections of a permutation are refused with the first objection to it. -/
theorem Knows.reports_selectionsFor (p : Permutation) :
    Reports (Linking.selectionsFor c p) (m.objections pins p) := by
  have hfilter : p.oracles.filter c.reaches = p.oracles.filter fun o => m.Serves pins o := by
    refine List.filter_congr fun o _ => ?_
    rw [Bool.eq_iff_iff, decide_eq_true_iff]
    exact hknows.reaches_iff o
  unfold Linking.selectionsFor Model.objections
  rw [hfilter]
  refine reports_mapM fun o ho => ?_
  exact hknows.reports_openFrom (of_decide_eq_true (List.mem_filter.1 ho).2) .empty

end LinkContext

namespace Linking

/-- The context of a link that is prepared knows the module with the recorded and the further pins. -/
theorem knows_of_prepare {mod : Module} {record : Record} {options : LinkOptions} {l : Linking}
    (hmodel : mod.properties.WellFormed) (h : prepare mod record options = .ok l) :
    l.context.Knows mod.properties (record.pins.entries ++ options.pins) := by
  obtain ⟨hproperty, -, -⟩ := prepare_spec h
  obtain ⟨linkers, hpins, -, -⟩ := pinAll_of_prepare h
  have hlegal : ∀ a ∈ record.pins.entries ++ options.pins, mod.properties.Legal a.1 a.2 := by
    intro a ha
    obtain ⟨q, hq, hv⟩ := LinkContext.allows_of_pinAll hpins a ha
    exact Model.legal_of_allows hq hv
  have hdeclared : ∀ name, l.context.property? name = none ↔ name ∉ mod.properties.names := by
    intro name
    rw [hproperty, Option.map_eq_none_iff, Option.eq_none_iff_forall_ne_some]
    exact ⟨fun hnone hname => (hmodel.exists_get? hname).elim hnone,
      fun hname q hq => hname (Model.mem_names_of_get? hq)⟩
  have hdecided : ∀ name, l.context.static? name = mod.properties.decided? (record.pins.entries ++ options.pins) name := by
    intro name
    rw [LinkContext.static?, hproperty]
    cases hq : mod.properties.selectionProperties.get? name with
    | some q =>
      rw [Model.decided?, ← hmodel.staticValue_eq hq]
      rfl
    | none =>
      have hname : name ∉ mod.properties.names := by
        rw [← hdeclared, hproperty, hq, Option.map_none]
      have hlookup : List.lookup name (record.pins.entries ++ options.pins).reverse = none := by
        rw [List.lookup_eq_none_iff]
        intro a ha
        refine bne_iff_ne.2 fun he => hname ?_
        rw [he]
        exact (hlegal a (List.mem_reverse.1 ha)).mem_names
      rw [Model.decided?, hlookup, Model.fixed?_eq_none hname]
      rfl
  refine ⟨hdeclared, ?_, hdecided, ?_⟩
  · intro name q value hq
    rw [hproperty] at hq
    obtain ⟨q₀, hq₀, rfl⟩ := Option.map_eq_some_iff.1 hq
    refine ⟨fun hv => Model.legal_of_allows hq₀ hv, fun hv => ?_⟩
    obtain ⟨q₁, hq₁, hv₁⟩ := LinkContext.allows_of_legal hmodel hv
    rw [hq₀] at hq₁
    exact (Option.some.inj hq₁) ▸ hv₁
  · intro name value hv
    rw [hdecided, Model.decided?, Option.or_eq_some_iff] at hv
    rcases hv with hpin | ⟨-, hfixed⟩
    · exact hlegal _ (List.mem_reverse.1 (mem_of_lookup_eq_some hpin))
    · exact hmodel.legal_fixed hfixed

/-! ## Complaints in the order in which a link looks -/

/-- The code that a disk holds for a permutation. -/
def resultAt (d : Disk) (file : Path) (id : Nat) : Except LinkError String :=
  match d.read file with
  | .error .notFound => .error (.resultMissing id file)
  | .error e => .error (.resultUnreadable id file e)
  | .ok bytes =>
    match Text.ofBytes? bytes with
    | some code => .ok code
    | none => .error (.resultUnreadable id file .notText)

/-- What is wrong with a link before any permutation is looked at: the number of result files, the module, the chain and the
pins. -/
def preliminaries (mod : Module) (record : Record) (files : List Path) (options : LinkOptions) : List LinkError :=
  (if record.permutations.length ≠ files.length then [.countMismatch record.permutations.length files.length] else []) ++
    (if record.moduleName ≠ mod.name then [.moduleMismatch mod.name record.moduleName] else []) ++
      failures (prepare mod record options)

/-- What is wrong with a permutation and its result: the answers are looked at before the file is read. -/
def complaintsAt (m : Model) (pins : List (String × String)) (d : Disk) (item : Permutation × Path) : List LinkError :=
  m.objections pins item.1 ++ failures (resultAt d item.2 item.1.id)

/-- All that is wrong with a link up to its chain, in the order in which it is looked at. -/
def complaints (mod : Module) (record : Record) (files : List Path) (options : LinkOptions) (d : Disk) : List LinkError :=
  preliminaries mod record files options ++
    (record.permutations.zip files).flatMap
      (complaintsAt mod.properties (record.pins.entries ++ options.pins) d)

theorem perform_readCode_eq (file : Path) (id : Nat) (s : Machine) :
    perform (readCode file id) s = (resultAt s.disk file id, s) := by
  have hlift : perform (liftM (Host.readText file : StateM Machine (Except Refusal String))) s =
      (.ok ((Host.readText file : StateM Machine (Except Refusal String)).run s).1, s) := by
    rw [perform_lift, Host.readText, run_bind, run_read]
    split
    · rfl
    · split
      · rfl
      · rfl
  rw [readCode, perform_bind_of_ok hlift, Host.readText, run_bind, run_read, resultAt]
  cases s.disk.read file with
  | error e => cases e <;> rfl
  | ok bytes =>
    simp only
    cases Text.ofBytes? bytes with
    | none => rfl
    | some code => rfl

/-- Merging the result of a permutation keeps the context and the disk. -/
theorem finish_keeps {l l' : Linking} {p : Permutation} {file : Path} {s s' : Machine}
    (h : perform (l.finish p file) s = (.ok l', s')) : l'.context = l.context ∧ s'.disk = s.disk := by
  unfold finish compile at h
  obtain ⟨selections, s₁, hsel, h⟩ := perform_bind_ok h
  obtain ⟨⟨result, l₁⟩, s₂, hcompile, h⟩ := perform_bind_ok h
  obtain ⟨code, s₃, hcode, hcompile⟩ := perform_bind_ok hcompile
  rw [perform_readCode_eq] at hcode
  rw [perform_except] at hsel
  obtain rfl := (Prod.mk.inj hsel).2
  obtain rfl := (Prod.mk.inj hcode).2
  obtain ⟨hl₁, rfl⟩ := Prod.mk.inj hcompile
  obtain ⟨hl', rfl⟩ := Prod.mk.inj h
  obtain rfl := Except.ok.inj hl'
  obtain ⟨-, rfl⟩ := Prod.mk.inj (Except.ok.inj hl₁)
  exact ⟨rfl, rfl⟩

/-- Merging the result of a permutation reports what is wrong with it. -/
theorem finish_reports {m : Model} {pins : List (String × String)} {l : Linking} (hknows : l.context.Knows m pins)
    (item : Permutation × Path) (s : Machine) :
    Reports (perform (l.finish item.1 item.2) s).1 (complaintsAt m pins s.disk item) := by
  unfold finish complaintsAt
  refine reports_perform_bind ?_ fun selections s' hsel => ?_
  · rw [perform_except]
    exact hknows.reports_selectionsFor item.1
  · rw [perform_except] at hsel
    obtain rfl := (Prod.mk.inj hsel).2
    -- after the file is read nothing can fail
    refine reports_perform_bind_sure ?_ fun r s' => ⟨r.2, rfl⟩
    unfold compile
    refine reports_perform_bind_sure ?_ fun code s' => ⟨_, rfl⟩
    rw [perform_readCode_eq]
    exact reports_failures _

/-- Merging the results of permutations reports what is wrong with them, one after the other. -/
theorem finishAll_reports {m : Model} {pins : List (String × String)} {l : Linking} (hknows : l.context.Knows m pins)
    (items : List (Permutation × Path)) (s : Machine) :
    Reports (perform (l.finishAll items) s).1 (items.flatMap (complaintsAt m pins s.disk)) := by
  induction items generalizing l s with
  | nil => exact ⟨l, rfl⟩
  | cons item items ih =>
    rw [finishAll, List.flatMap_cons]
    refine reports_perform_bind (finish_reports hknows item s) fun l' s' hfinish => ?_
    obtain ⟨hcontext, hdisk⟩ := finish_keeps hfinish
    rw [← hdisk]
    exact ih (hcontext ▸ hknows) s'

/-- A link up to its chain reports all its complaints. -/
theorem gather_reports {mod : Module} (hmodel : mod.properties.WellFormed) (record : Record) (files : List Path)
    (options : LinkOptions) (s : Machine) :
    Reports (perform (gather mod record files options) s).1 (complaints mod record files options s.disk) := by
  unfold gather complaints preliminaries
  by_cases hlen : record.permutations.length ≠ files.length
  · rw [if_pos hlen, if_pos hlen]
    rfl
  by_cases hname : record.moduleName ≠ mod.name
  · rw [if_neg hlen, if_neg hlen, if_pos hname, if_pos hname]
    rfl
  rw [if_neg hlen, if_neg hlen, if_neg hname, if_neg hname, List.nil_append, List.nil_append]
  refine reports_perform_bind ?_ fun l s' hprep => ?_
  · rw [perform_except]
    exact reports_failures _
  · rw [perform_except] at hprep
    obtain ⟨hprepare, rfl⟩ := Prod.mk.inj hprep
    have hknows := knows_of_prepare hmodel hprepare
    obtain ⟨s₁, hlog, hdisk⟩ : ∃ s₁ : Machine,
        perform (liftM (Host.log ⟨.info, linkOrigin, "Linking module " ++ mod.name⟩ : StateM Machine Unit)) s =
          (.ok (), s₁) ∧ s₁.disk = s.disk := ⟨_, rfl, rfl⟩
    rw [perform_bind_of_ok hlog, ← hdisk]
    exact reports_perform_bind_sure (finishAll_reports hknows (record.permutations.zip files) s₁) fun l' s' => ⟨_, rfl⟩

end Linking

/-- A link with complaints fails with the first of them. -/
theorem perform_link_of_complaints {mod : Module} (hmodel : mod.properties.WellFormed) {record : Record} {files : List Path}
    {options : LinkOptions} {s : Machine} {e : LinkError} {rest : List LinkError}
    (h : Linking.complaints mod record files options s.disk = e :: rest) :
    ∃ s', perform (link mod record files options) s = (.error e, s') := by
  have hgather := Linking.gather_reports hmodel record files options s
  rw [h] at hgather
  obtain ⟨r, s', hrun⟩ : ∃ r s', perform (Linking.gather mod record files options) s = (r, s') := ⟨_, _, rfl⟩
  rw [hrun] at hgather
  have herror : r = .error e := hgather
  refine ⟨s', ?_⟩
  rw [Linking.link_eq_gather, perform_bind, hrun, herror]

namespace Linking

variable (mod : Module) (record : Record) (files : List Path) (options : LinkOptions)

/-- What a link may fail with where there is an objection to a permutation: an objection to it or to one before it, or what is
wrong from the outset or with a result before it. -/
inductive Foremost (d : Disk) (i : Nat) (e : LinkError) : Prop where
  | objection {j : Nat} {q : Permutation} : j ≤ i → record.permutations[j]? = some q →
      e ∈ mod.properties.objections (record.pins.entries ++ options.pins) q → Foremost d i e
  | outset : e ∈ preliminaries mod record files options → Foremost d i e
  | result {j : Nat} {q : Permutation} {file : Path} : j < i → record.permutations[j]? = some q → files[j]? = some file →
      resultAt d file q.id = .error e → Foremost d i e

variable {mod record files options}

theorem eq_error_of_mem_failures {α : Type} {x : Except LinkError α} {e : LinkError} (h : e ∈ failures x) : x = .error e := by
  cases x with
  | ok a => nomatch h
  | error e' => rw [List.mem_singleton.1 h]

/-- A complaint about one of the first permutations is foremost. -/
theorem foremost_of_mem {d : Disk} {i : Nat} {e : LinkError}
    (h : e ∈ ((record.permutations.zip files).take i).flatMap
      (complaintsAt mod.properties (record.pins.entries ++ options.pins) d)) : Foremost mod record files options d i e := by
  obtain ⟨item, hitem, he⟩ := List.mem_flatMap.1 h
  obtain ⟨j, hj⟩ := List.mem_iff_getElem?.1 hitem
  obtain ⟨hji, hj⟩ : j < i ∧ (record.permutations.zip files)[j]? = some item := by
    rw [List.getElem?_take] at hj
    split at hj
    · rename_i hji
      exact ⟨hji, hj⟩
    · nomatch hj
  obtain ⟨hq, hfile⟩ := List.getElem?_zip_eq_some.1 hj
  rcases List.mem_append.1 he with he | he
  · exact .objection (Nat.le_of_lt hji) hq he
  · exact .result hji hq hfile (eq_error_of_mem_failures he)

/-- If there are objections to a permutation, the first complaint is foremost. -/
theorem exists_complaint (d : Disk) {i : Nat} {p : Permutation} (hp : record.permutations[i]? = some p)
    (hobject : mod.properties.objections (record.pins.entries ++ options.pins) p ≠ []) :
    ∃ e rest, complaints mod record files options d = e :: rest ∧ Foremost mod record files options d i e := by
  cases hpre : preliminaries mod record files options with
  | cons e rest =>
    refine ⟨e, _, by rw [complaints, hpre, List.cons_append], .outset ?_⟩
    rw [hpre]
    exact List.mem_cons_self
  | nil =>
    have hlen : record.permutations.length = files.length := by
      by_contra hlen
      rw [preliminaries, if_pos hlen] at hpre
      nomatch hpre
    obtain ⟨file, hfile⟩ : ∃ file, files[i]? = some file := by
      have hi := (List.getElem?_eq_some_iff.1 hp).1
      exact ⟨_, List.getElem?_eq_getElem (hlen ▸ hi)⟩
    -- the complaints up to the objections to the permutation; the first of all is one of them
    have hsplit : complaints mod record files options d =
        (((record.permutations.zip files).take i).flatMap
            (complaintsAt mod.properties (record.pins.entries ++ options.pins) d) ++
          mod.properties.objections (record.pins.entries ++ options.pins) p) ++
        (failures (resultAt d file p.id) ++ ((record.permutations.zip files).drop (i + 1)).flatMap
          (complaintsAt mod.properties (record.pins.entries ++ options.pins) d)) := by
      have hitem : (record.permutations.zip files)[i]? = some (p, file) := List.getElem?_zip_eq_some.2 ⟨hp, hfile⟩
      obtain ⟨hi, hget⟩ := List.getElem?_eq_some_iff.1 hitem
      rw [complaints, hpre, List.nil_append]
      conv_lhs => rw [← List.take_append_drop i (record.permutations.zip files), List.drop_eq_getElem_cons hi, hget]
      rw [List.flatMap_append, List.flatMap_cons]
      unfold complaintsAt
      simp only [List.append_assoc]
    obtain ⟨e, front, hfront⟩ := List.exists_cons_of_ne_nil (List.append_ne_nil_of_right_ne_nil
      (((record.permutations.zip files).take i).flatMap
        (complaintsAt mod.properties (record.pins.entries ++ options.pins) d)) hobject)
    refine ⟨e, _, by rw [hsplit, hfront, List.cons_append], ?_⟩
    have hmem : e ∈ e :: front := List.mem_cons_self
    rw [← hfront] at hmem
    rcases List.mem_append.1 hmem with hmem | hmem
    · exact foremost_of_mem hmem
    · exact .objection (Nat.le_refl i) hp hmem

/-- A link with an answer that is not legal, in a combination that is served, fails. -/
theorem link_fails_foremost (hmodel : mod.properties.WellFormed) (s : Machine) {i : Nat} {p : Permutation}
    (hp : record.permutations[i]? = some p) {o : Oracle} (ho : o ∈ p.oracles)
    (hserves : mod.properties.Serves (record.pins.entries ++ options.pins) o) {a : String × String} (ha : a ∈ o.pairs)
    (hlegal : ¬mod.properties.Legal a.1 a.2) :
    ∃ e s', perform (link mod record files options) s = (.error e, s') ∧ Foremost mod record files options s.disk i e := by
  have hobject : mod.properties.objections (record.pins.entries ++ options.pins) p ≠ [] := by
    intro hnil
    exact hlegal ((mod.properties.objections_eq_nil_iff _ p).1 hnil o ho hserves a ha)
  obtain ⟨e, rest, hcomplaints, hforemost⟩ := exists_complaint s.disk hp hobject
  obtain ⟨s', hlink⟩ := perform_link_of_complaints hmodel hcomplaints
  exact ⟨e, s', hlink, hforemost⟩

end Linking

/-- Whatever a record says, the served combinations of a link that succeeds give only declared names and legal values. Where
one does not, the link fails with the objection to it, unless something before it is wrong. -/
theorem link_detects_stale {mod : Module} (hmodel : mod.properties.Reachable) (record : Record) (files : List Path)
    (options : LinkOptions) (s : Machine) :
    (∀ set s', perform (link mod record files options) s = (.ok set, s') → ∀ p ∈ record.permutations, ∀ o ∈ p.oracles,
      mod.properties.Serves (record.pins.entries ++ options.pins) o → ∀ a ∈ o.pairs,
        a.1 ∈ mod.properties.names ∧ mod.properties.Legal a.1 a.2) ∧
    ∀ i p, record.permutations[i]? = some p → ∀ o ∈ p.oracles,
      mod.properties.Serves (record.pins.entries ++ options.pins) o → ∀ a ∈ o.pairs, ¬mod.properties.Legal a.1 a.2 →
        ∃ e s', perform (link mod record files options) s = (.error e, s') ∧
          Linking.Foremost mod record files options s.disk i e := by
  have hformed := hmodel.wellFormed
  constructor
  · intro set s' hlink p hp o ho hserves a ha
    by_contra hbad
    have hlegal : ¬mod.properties.Legal a.1 a.2 := fun h => hbad ⟨h.mem_names, h⟩
    obtain ⟨i, hi⟩ := List.mem_iff_getElem?.1 hp
    obtain ⟨e, s'', herror, -⟩ := Linking.link_fails_foremost hformed s hi ho hserves ha hlegal
    cases (Prod.mk.inj (hlink.symm.trans herror)).1
  · intro i p hp o ho hserves a ha hlegal
    exact Linking.link_fails_foremost hformed s hp ho hserves ha hlegal

/-- A record of `kiosk` with a combination for a property that the module does not have. -/
def outdatedRecord : Record where
  moduleName := "kiosk"
  style := .pretty
  body := "show"
  permutations := [
    ⟨0, [⟨["agent", "locale"], ["moz", "en"]⟩, ⟨["agent", "accent"], ["ie6", "red"]⟩]⟩,
    ⟨1, [⟨["agent", "locale"], ["moz", "fr"]⟩]⟩]
  pins := .empty
  generated := .empty

/-- A machine with the record and a result for each permutation. -/
def outdatedMachine : Machine where
  disk := ⟨.directory [("0.js", .file "show".toUTF8), ("1.js", .file "hide".toUTF8),
    ("kiosk.json", .file outdatedRecord.toBytes)], []⟩
  notes := []

theorem exists_link_outdated :
    ∃ set s', perform (link kiosk outdatedRecord [⟨"0.js"⟩, ⟨"1.js"⟩] ⟨[("agent", "moz")], .builtin⟩) outdatedMachine =
      (.ok set, s') :=
  exists_ok_of_isOk (by decide +kernel)

/-- Where the combination is served the link objects to it; where another agent is pinned the rest of the record is linked. -/
theorem outdated_detected :
    (∃ set s', perform (link kiosk outdatedRecord [⟨"0.js"⟩, ⟨"1.js"⟩] ⟨[("agent", "moz")], .builtin⟩) outdatedMachine =
        (.ok set, s') ∧ kiosk.properties.Legal "locale" "fr") ∧
      ∃ e s', perform (link kiosk outdatedRecord [⟨"0.js"⟩, ⟨"1.js"⟩] ⟨[("agent", "ie6")], .builtin⟩) outdatedMachine =
        (.error e, s') ∧
          Linking.Foremost kiosk outdatedRecord [⟨"0.js"⟩, ⟨"1.js"⟩] ⟨[("agent", "ie6")], .builtin⟩ outdatedMachine.disk 0 e := by
  constructor
  · obtain ⟨set, s', hlink⟩ := exists_link_outdated
    refine ⟨set, s', hlink, ?_⟩
    exact ((link_detects_stale browsers_reachable outdatedRecord _ _ outdatedMachine).1 set s' hlink
      ⟨1, [⟨["agent", "locale"], ["moz", "fr"]⟩]⟩ (by decide) ⟨["agent", "locale"], ["moz", "fr"]⟩ (by decide)
      (by decide) ("locale", "fr") (by decide)).2
  · exact (link_detects_stale browsers_reachable outdatedRecord _ _ outdatedMachine).2 0 _ rfl
      ⟨["agent", "accent"], ["ie6", "red"]⟩ (by decide) (by decide) ("accent", "red") (by decide) (by decide)

/-- A record that is accepted is linked although one of its combinations names a property that is not declared: the pin of the
link drops it. -/
theorem dropped_answer_undeclared :
    perform (Record.read ⟨"kiosk.json"⟩) outdatedMachine = (.ok outdatedRecord, outdatedMachine) ∧
      (∃ set s', perform (link kiosk outdatedRecord [⟨"0.js"⟩, ⟨"1.js"⟩] ⟨[("agent", "moz")], .builtin⟩) outdatedMachine =
        (.ok set, s')) ∧
      ∃ p ∈ outdatedRecord.permutations, ∃ o ∈ p.oracles, ("accent", "red") ∈ o.pairs ∧
        "accent" ∉ kiosk.properties.names ∧ ¬kiosk.properties.Legal "accent" "red" := by
  refine ⟨?_, exists_link_outdated, by decide⟩
  have hids : outdatedRecord.IdsBounded := ⟨by decide, fun a ha => nomatch ha⟩
  have hdisk : outdatedMachine.disk.read ⟨"kiosk.json"⟩ = .ok outdatedRecord.toBytes := rfl
  rw [Record.perform_read hdisk, Record.ofBytes_toBytes hids]
  rfl

end DeferredBinding
