import DeferredBinding.Proofs.Link.Context
import DeferredBinding.Proofs.Property.Enumeration

/-!
# Selections and combinations of values

A link decides some binding properties of a module: those with one value and those that are pinned. The others are open, and a
selection has a value for each of them (`IsCombination`). Reachable rows of the narrowed model and selections belong together:
the selection of a row leaves out what is decided, and no two rows have the same (`eq_of_extends`); where the pins of a link
agree with those of the record, every combination of values of the open properties is the selection of a row
(`NarrowedLink.exists_row`).
-/

namespace DeferredBinding

/-- The value that a property is decided to have: that of the last pin of its name, or the only one it has. -/
def Binding.decided? (pins : List (String × String)) (b : Binding) : Option String :=
  (List.lookup b.name pins.reverse).or b.staticValue?

/-- The binding properties that are left open: they have at least two values and are not pinned. -/
def Model.openBindings (m : Model) (pins : List (String × String)) : List Binding :=
  m.bindings.filter fun b => 2 ≤ b.values.length ∧ b.name ∉ pins.map (·.1)

/-- A selection is a combination of values of a list of properties: it gives a legal value for each of them and nothing
else. -/
structure IsCombination (bs : List Binding) (s : Selection) : Prop where
  legal : ∀ name value, s.get? name = some value → ∃ b ∈ bs, b.name = name ∧ value ∈ b.values
  complete : ∀ b ∈ bs, ∃ value, s.get? b.name = some value

/-- An oracle extends a selection: it answers for all binding properties in their order, with the value that the selection gives
or else with the decided one. -/
structure Extends (m : Model) (pins : List (String × String)) (s : Selection) (o : Oracle) : Prop where
  named : o.props = m.bindings.map (·.name)
  answered : ∀ b ∈ m.bindings, o.valueOf? b.name = (s.get? b.name).or (b.decided? pins)

/-- A link sees the binding properties of a model, and has decided them by a list of pins. -/
def LinkContext.Decides (c : LinkContext) (m : Model) (pins : List (String × String)) : Prop :=
  ∀ b ∈ m.bindings, ∃ q, c.property? b.name = some q ∧ q.values = b.values ∧ q.staticValue = b.decided? pins

/-! ## Decided properties -/

/-- A valid property is undecided exactly when it has two values and is not pinned. -/
theorem Binding.Valid.decided?_eq_none_iff {b : Binding} (h : b.Valid) (pins : List (String × String)) :
    b.decided? pins = none ↔ 2 ≤ b.values.length ∧ b.name ∉ pins.map (·.1) := by
  have hkeys : List.lookup b.name pins.reverse = none ↔ b.name ∉ pins.map (·.1) := by
    rw [lookup_eq_none_iff_not_mem, List.map_reverse, List.mem_reverse]
  have hstatic : b.staticValue? = none ↔ 2 ≤ b.values.length := by
    unfold staticValue?
    split
    · rename_i only hv
      simp [hv]
    · rename_i hv
      refine ⟨fun _ => ?_, fun _ => rfl⟩
      obtain ⟨v, rest, hvs⟩ := List.exists_cons_of_ne_nil h.nonempty
      cases rest with
      | nil => exact absurd hvs (hv v)
      | cons w rest => simp [hvs]
  rw [decided?, Option.or_eq_none_iff, hkeys, hstatic, and_comm]

/-- The open properties of a well-formed model are the undecided ones. -/
theorem Model.WellFormed.mem_openBindings_iff {m : Model} (h : m.WellFormed) (pins : List (String × String)) (b : Binding) :
    b ∈ m.openBindings pins ↔ b ∈ m.bindings ∧ b.decided? pins = none := by
  rw [openBindings, List.mem_filter, decide_eq_true_eq]
  exact and_congr_right fun hb => ((h.valid b hb).decided?_eq_none_iff pins).symm

/-! ## Rows and their oracles -/

/-- The names that an oracle for a row answers for. -/
theorem map_fst_pairs_oracleOf {bs : List Binding} {row : Row} (h : IsRow bs row) :
    (oracleOf bs row).pairs.map (·.1) = bs.map (·.name) := by
  have hl : (bs.map (·.name)).length ≤ row.length := by
    rw [List.length_map]
    exact Nat.le_of_eq (List.Forall₂.length_eq h)
  exact List.map_fst_zip hl

/-- The oracle for a row answers each property with the value of the row. -/
theorem forall₂_valueOf?_oracleOf {bs : List Binding} {row : Row} (hd : (bs.map (·.name)).Nodup) (h : IsRow bs row) :
    List.Forall₂ (fun b v => v ∈ b.values ∧ (oracleOf bs row).valueOf? b.name = some v) bs row := by
  have hkeys : ((oracleOf bs row).pairs.map (·.1)).Nodup := by
    rw [map_fst_pairs_oracleOf h]
    exact hd
  have hpairs : (oracleOf bs row).pairs = (bs.zip row).map fun p => (p.1.name, p.2) := by
    rw [Oracle.pairs, oracleOf, List.zip_map_left]
    rfl
  refine List.forall₂_iff_zip.2 ⟨List.Forall₂.length_eq h, fun {b v} hbv => ⟨(List.forall₂_iff_zip.1 h).2 hbv, ?_⟩⟩
  refine lookup_eq_some_of_mem hkeys ?_
  rw [hpairs]
  exact List.mem_map.2 ⟨(b, v), hbv, rfl⟩

/-- A row is read off the answers of its oracle. -/
theorem eq_map_valueOf?_oracleOf {bs : List Binding} {row : Row} (hd : (bs.map (·.name)).Nodup) (h : IsRow bs row) :
    row = bs.map fun b => ((oracleOf bs row).valueOf? b.name).getD "" := by
  have hf := forall₂_valueOf?_oracleOf hd h
  generalize (oracleOf bs row).valueOf? = answer at hf
  clear h
  induction hf with
  | nil => rfl
  | @cons b v bs row hv _ ih =>
    rw [List.map_cons, hv.2, Option.getD_some, ← ih (List.nodup_cons.1 hd).2]

/-- What an oracle for a row answers for is one of the properties. -/
theorem exists_name_of_valueOf? {bs : List Binding} {row : Row} (h : IsRow bs row) {name value : String}
    (hv : (oracleOf bs row).valueOf? name = some value) : ∃ b ∈ bs, b.name = name := by
  have hm : name ∈ (oracleOf bs row).pairs.map (·.1) := List.mem_map.2 ⟨_, mem_of_lookup_eq_some hv, rfl⟩
  rw [map_fst_pairs_oracleOf h] at hm
  exact List.mem_map.1 hm

/-! ## The selections of a link -/

/-- The selections of all permutations of a model are those of the rows that the link reaches. -/
theorem selections_perm (m : Model) (c : LinkContext) :
    (m.permutations.flatMap c.selections).Perm
      ((((rows m.bindings).map (oracleOf m.bindings)).filter c.reaches).map c.selection) := by
  have hflat : m.permutations.flatMap c.selections =
      ((m.permutations.flatMap (·.oracles)).filter c.reaches).map c.selection := by
    rw [List.filter_flatMap, List.map_flatMap]
    exact List.flatMap_congr fun p _ => c.selections_eq p
  rw [hflat]
  exact ((flatMap_oracles_perm m).filter _).map _

/-- An oracle that the link reaches is that of a row. -/
theorem exists_row_of_mem {bs : List Binding} {c : LinkContext} {o : Oracle}
    (ho : o ∈ ((rows bs).map (oracleOf bs)).filter c.reaches) :
    ∃ row, IsRow bs row ∧ o = oracleOf bs row ∧ c.reaches o = true := by
  obtain ⟨ho, hr⟩ := List.mem_filter.1 ho
  obtain ⟨row, hrow, rfl⟩ := List.mem_map.1 ho
  exact ⟨row, (mem_rows_iff _ row).1 hrow, rfl, hr⟩

/-! ## A link of a narrowed model -/

/-- A model is narrowed by pins, and a link has decided its properties by these and further pins. -/
structure NarrowedLink (m : Model) (pins more : List (String × String)) (m' : Model) (c : LinkContext) : Prop where
  reachable : m.Reachable
  narrowed : m.pinAll pins = .ok m'
  decides : c.Decides m (pins ++ more)

namespace NarrowedLink

variable {m m' : Model} {pins more : List (String × String)} {c : LinkContext} (h : NarrowedLink m pins more m' c)

include h

theorem bindings_eq : m'.bindings = m.bindings.map (Binding.pinnedBy pins) := by
  rw [(h.reachable.wellFormed.pinAll_eq_ok h.narrowed).2.2]

theorem map_name_bindings : m'.bindings.map (·.name) = m.bindings.map (·.name) := by
  rw [h.bindings_eq, List.map_map]
  exact List.map_congr_left fun b _ => b.name_pinnedBy pins

theorem nodup_names : (m'.bindings.map (·.name)).Nodup := by
  rw [h.map_name_bindings]
  exact (List.nodup_append.1 h.reachable.wellFormed.distinct).1

/-- What a link has decided of a property. -/
theorem static?_eq {b : Binding} (hb : b ∈ m.bindings) : c.static? b.name = b.decided? (pins ++ more) := by
  obtain ⟨q, hq, _, hs⟩ := h.decides b hb
  rw [LinkContext.static?, hq, Option.bind_some, hs]

/-- The values that are left of a property are values of it. -/
theorem mem_values_of_pinnedBy {b : Binding} (hb : b ∈ m.bindings) {v : String} (hv : v ∈ (b.pinnedBy pins).values) :
    v ∈ b.values := by
  cases hp : List.lookup b.name pins with
  | none => rwa [Binding.pinnedBy_eq_self hp] at hv
  | some fixed =>
    rw [Binding.pinnedBy_eq_narrowed hp] at hv
    rw [show v = fixed by simpa [Binding.narrowed] using hv]
    have hl := (h.reachable.wellFormed.pinAll_eq_ok h.narrowed).1 _ (mem_of_lookup_eq_some hp)
    exact (h.reachable.wellFormed.legal_binding_iff hb fixed).1 hl

/-- The oracle for a row of the narrowed model has a legal answer for each property. -/
theorem exists_valueOf? {row : Row} (hr : IsRow m'.bindings row) {b : Binding} (hb : b ∈ m.bindings) :
    ∃ v ∈ b.values, (oracleOf m'.bindings row).valueOf? b.name = some v := by
  have hb' : b.pinnedBy pins ∈ m'.bindings := by
    rw [h.bindings_eq]
    exact List.mem_map_of_mem hb
  obtain ⟨v, hv, ha⟩ := exists_of_forall₂ (forall₂_valueOf?_oracleOf h.nodup_names hr) hb'
  rw [b.name_pinnedBy pins] at ha
  exact ⟨v, h.mem_values_of_pinnedBy hb hv, ha⟩

/-- The names that the oracle for a row of the narrowed model answers for are different. -/
theorem nodup_pairs {row : Row} (hr : IsRow m'.bindings row) : ((oracleOf m'.bindings row).pairs.map (·.1)).Nodup := by
  rw [map_fst_pairs_oracleOf hr]
  exact h.nodup_names

/-- The oracle for a row that a link reaches extends the selection of the row. -/
theorem extends_selection {row : Row} (hr : IsRow m'.bindings row) (hc : c.reaches (oracleOf m'.bindings row) = true) :
    Extends m (pins ++ more) (c.selection (oracleOf m'.bindings row)) (oracleOf m'.bindings row) := by
  refine ⟨h.map_name_bindings, fun b hb => ?_⟩
  obtain ⟨v, _, hv⟩ := h.exists_valueOf? hr hb
  rw [c.get?_selection (h.nodup_pairs hr), h.static?_eq hb]
  cases hs : b.decided? (pins ++ more) with
  | none => simp
  | some fixed =>
    have hfixed : c.static? b.name = some fixed := (h.static?_eq hb).trans hs
    have hv' := (c.reaches_eq_true_iff (h.nodup_pairs hr)).1 hc b.name fixed v hfixed hv
    rw [hv, hv']
    rfl

/-- The selection of a row has a value for each open property and for nothing else. -/
theorem isCombination_selection {row : Row} (hr : IsRow m'.bindings row) :
    IsCombination (m.openBindings (pins ++ more)) (c.selection (oracleOf m'.bindings row)) := by
  have hget := c.get?_selection (h.nodup_pairs hr)
  refine ⟨fun name value hv => ?_, fun b hb => ?_⟩
  · rw [hget] at hv
    split at hv
    · rename_i hnone
      obtain ⟨b', hb', rfl⟩ := exists_name_of_valueOf? hr hv
      rw [h.bindings_eq] at hb'
      obtain ⟨b, hb, rfl⟩ := List.mem_map.1 hb'
      rw [b.name_pinnedBy pins] at hv hnone ⊢
      obtain ⟨v, hvb, hv'⟩ := h.exists_valueOf? hr hb
      rw [h.static?_eq hb] at hnone
      refine ⟨b, (h.reachable.wellFormed.mem_openBindings_iff _ b).2 ⟨hb, Option.isNone_iff_eq_none.1 hnone⟩, rfl, ?_⟩
      rw [hv] at hv'
      exact Option.some.inj hv' ▸ hvb
    · nomatch hv
  · obtain ⟨hbm, hnone⟩ := (h.reachable.wellFormed.mem_openBindings_iff _ b).1 hb
    obtain ⟨v, _, hv⟩ := h.exists_valueOf? hr hbm
    refine ⟨v, ?_⟩
    rw [hget, h.static?_eq hbm, hnone]
    exact hv

/-- Only one row has an oracle that extends a selection. -/
theorem eq_of_extends {row row' : Row} {s : Selection} (hr : IsRow m'.bindings row) (hr' : IsRow m'.bindings row')
    (he : Extends m (pins ++ more) s (oracleOf m'.bindings row))
    (he' : Extends m (pins ++ more) s (oracleOf m'.bindings row')) : row = row' := by
  rw [eq_map_valueOf?_oracleOf h.nodup_names hr, eq_map_valueOf?_oracleOf h.nodup_names hr']
  refine List.map_congr_left fun b' hb' => ?_
  rw [h.bindings_eq] at hb'
  obtain ⟨b, hb, rfl⟩ := List.mem_map.1 hb'
  rw [b.name_pinnedBy pins, he.answered b hb, he'.answered b hb]

/-! ## Pins that agree -/

/-- Where the further pins are legal and agree with those that narrowed the model, a decided value is left. -/
theorem decided_mem_values (hlegal : ∀ p ∈ more, m.Legal p.1 p.2) (hagree : ∀ p ∈ more, ∀ q ∈ pins, p.1 = q.1 → p.2 = q.2)
    {b : Binding} (hb : b ∈ m.bindings) {v : String} (hv : b.decided? (pins ++ more) = some v) :
    v ∈ (b.pinnedBy pins).values := by
  obtain ⟨hl, hsame, _⟩ := h.reachable.wellFormed.pinAll_eq_ok h.narrowed
  have hpinned : ∀ x, (b.name, x) ∈ pins ++ more → x ∈ b.values := by
    intro x hx
    rw [← h.reachable.wellFormed.legal_binding_iff hb]
    rcases List.mem_append.1 hx with hx | hx
    · exact hl _ hx
    · exact hlegal _ hx
  rw [Binding.decided?, Option.or_eq_some_iff] at hv
  cases hp : List.lookup b.name pins with
  | none =>
    rw [Binding.pinnedBy_eq_self hp]
    rcases hv with hv | ⟨_, hv⟩
    · exact hpinned v (List.mem_reverse.1 (mem_of_lookup_eq_some hv))
    · unfold Binding.staticValue? at hv
      split at hv
      · rename_i only hvs
        rw [hvs, Option.some.inj hv]
        exact List.mem_singleton.2 rfl
      · nomatch hv
  | some fixed =>
    have hfixed := mem_of_lookup_eq_some hp
    rw [Binding.pinnedBy_eq_narrowed hp]
    refine List.mem_singleton.2 ?_
    rcases hv with hv | ⟨hnone, _⟩
    · rcases List.mem_append.1 (List.mem_reverse.1 (mem_of_lookup_eq_some hv)) with hm | hm
      · exact hsame _ hm _ hfixed rfl
      · exact hagree _ hm _ hfixed rfl
    · have hkey : b.name ∈ (pins ++ more).reverse.map (·.1) :=
        List.mem_map.2 ⟨_, List.mem_reverse.2 (List.mem_append_left _ hfixed), rfl⟩
      exact absurd hkey (lookup_eq_none_iff_not_mem.1 hnone)

/-- A combination of the open properties gives nothing for a decided one. -/
theorem get?_eq_none_of_decided {s : Selection} (hs : IsCombination (m.openBindings (pins ++ more)) s) {b : Binding}
    (hb : b ∈ m.bindings) {v : String} (hv : b.decided? (pins ++ more) = some v) : s.get? b.name = none := by
  refine Option.eq_none_iff_forall_ne_some.2 fun w hw => ?_
  obtain ⟨b₁, hb₁, hname, _⟩ := hs.legal _ w hw
  obtain ⟨hb₁, hnone⟩ := (h.reachable.wellFormed.mem_openBindings_iff _ b₁).1 hb₁
  have hnames := (List.nodup_append.1 h.reachable.wellFormed.distinct).1
  rw [List.inj_on_of_nodup_map hnames hb₁ hb hname, hv] at hnone
  nomatch hnone

/-- A combination of the open properties and the decided values give each property one of the values that are left. -/
theorem exists_value (hlegal : ∀ p ∈ more, m.Legal p.1 p.2) (hagree : ∀ p ∈ more, ∀ q ∈ pins, p.1 = q.1 → p.2 = q.2)
    {s : Selection} (hs : IsCombination (m.openBindings (pins ++ more)) s) {b : Binding} (hb : b ∈ m.bindings) :
    ∃ v ∈ (b.pinnedBy pins).values, (s.get? b.name).or (b.decided? (pins ++ more)) = some v := by
  cases hd : b.decided? (pins ++ more) with
  | some v =>
    rw [h.get?_eq_none_of_decided hs hb hd]
    exact ⟨v, h.decided_mem_values hlegal hagree hb hd, rfl⟩
  | none =>
    have hopen := (h.reachable.wellFormed.mem_openBindings_iff _ b).2 ⟨hb, hd⟩
    obtain ⟨v, hv⟩ := hs.complete b hopen
    obtain ⟨b₁, hb₁, hname, hv₁⟩ := hs.legal _ v hv
    have hnames := (List.nodup_append.1 h.reachable.wellFormed.distinct).1
    rw [List.inj_on_of_nodup_map hnames ((h.reachable.wellFormed.mem_openBindings_iff _ b₁).1 hb₁).1 hb hname] at hv₁
    have hfree : List.lookup b.name pins = none := by
      have hkeys := (((h.reachable.wellFormed.valid b hb).decided?_eq_none_iff _).1 hd).2
      rw [List.map_append, List.mem_append, not_or] at hkeys
      exact lookup_eq_none_iff_not_mem.2 hkeys.1
    rw [hv, Binding.pinnedBy_eq_self hfree]
    exact ⟨v, hv₁, rfl⟩

/-- Every combination of values of the open properties is the selection of a row that the link reaches. -/
theorem exists_row (hlegal : ∀ p ∈ more, m.Legal p.1 p.2) (hagree : ∀ p ∈ more, ∀ q ∈ pins, p.1 = q.1 → p.2 = q.2)
    {s : Selection} (hs : IsCombination (m.openBindings (pins ++ more)) s) :
    ∃ row, IsRow m'.bindings row ∧ c.reaches (oracleOf m'.bindings row) = true ∧
      c.selection (oracleOf m'.bindings row) = s := by
  obtain ⟨value, hvalue⟩ : ∃ value : Binding → String, ∀ b ∈ m.bindings,
      value b ∈ (b.pinnedBy pins).values ∧ (s.get? b.name).or (b.decided? (pins ++ more)) = some (value b) := by
    refine ⟨fun b => ((s.get? b.name).or (b.decided? (pins ++ more))).getD "", fun b hb => ?_⟩
    obtain ⟨v, hv, he⟩ := h.exists_value hlegal hagree hs hb
    simp only [he, Option.getD_some]
    exact ⟨hv, trivial⟩
  have hrow : IsRow m'.bindings (m.bindings.map value) := by
    rw [IsRow, h.bindings_eq, List.forall₂_map_left_iff, List.forall₂_map_right_iff, List.forall₂_same]
    exact fun b hb => (hvalue b hb).1
  have hanswer : ∀ b ∈ m.bindings, (oracleOf m'.bindings (m.bindings.map value)).valueOf? b.name = some (value b) := by
    have hf := forall₂_valueOf?_oracleOf h.nodup_names hrow
    generalize oracleOf m'.bindings (m.bindings.map value) = o at hf
    rw [h.bindings_eq, List.forall₂_map_left_iff, List.forall₂_map_right_iff, List.forall₂_same] at hf
    intro b hb
    have := (hf b hb).2
    rwa [b.name_pinnedBy pins] at this
  have hname : ∀ name v, (oracleOf m'.bindings (m.bindings.map value)).valueOf? name = some v →
      ∃ b ∈ m.bindings, b.name = name := by
    intro name v hv
    obtain ⟨b', hb', rfl⟩ := exists_name_of_valueOf? hrow hv
    rw [h.bindings_eq] at hb'
    obtain ⟨b, hb, rfl⟩ := List.mem_map.1 hb'
    exact ⟨b, hb, (b.name_pinnedBy pins).symm⟩
  refine ⟨m.bindings.map value, hrow, ?_, ?_⟩
  · refine (c.reaches_eq_true_iff (h.nodup_pairs hrow)).2 fun name fixed v hfixed hv => ?_
    obtain ⟨b, hb, rfl⟩ := hname name v hv
    rw [h.static?_eq hb] at hfixed
    have hor := (hvalue b hb).2
    rw [h.get?_eq_none_of_decided hs hb hfixed, hfixed, Option.none_or] at hor
    rw [hanswer b hb] at hv
    exact Option.some.inj (hv.symm.trans hor.symm)
  · refine Dict.ext_get? fun name => ?_
    rw [c.get?_selection (h.nodup_pairs hrow)]
    by_cases hn : ∃ b ∈ m.bindings, b.name = name
    · obtain ⟨b, hb, rfl⟩ := hn
      rw [h.static?_eq hb, hanswer b hb]
      cases hd : b.decided? (pins ++ more) with
      | some fixed => exact (h.get?_eq_none_of_decided hs hb hd).symm
      | none =>
        have hor := (hvalue b hb).2
        rw [hd, Option.or_none] at hor
        exact hor.symm
    · have hnone : s.get? name = none := by
        refine Option.eq_none_iff_forall_ne_some.2 fun v hv => hn ?_
        obtain ⟨b, hb, hbn, _⟩ := hs.legal name v hv
        exact ⟨b, ((h.reachable.wellFormed.mem_openBindings_iff _ b).1 hb).1, hbn⟩
      have hnone' : (oracleOf m'.bindings (m.bindings.map value)).valueOf? name = none :=
        Option.eq_none_iff_forall_ne_some.2 fun v hv => hn (hname name v hv)
      rw [hnone, hnone']
      split
      · rfl
      · rfl

/-! ## The selections of all permutations -/

/-- Over all permutations, no selection occurs twice. -/
theorem nodup_selections : (m'.permutations.flatMap c.selections).Nodup := by
  rw [(selections_perm m' c).nodup_iff]
  have hvalid := (h.reachable.of_pinAll h.narrowed).wellFormed.valid
  have hrows : ((rows m'.bindings).map (oracleOf m'.bindings)).Nodup := by
    refine (rows_nodup fun b hb => (hvalid b hb).distinct).map ?_
    exact fun row row' he => congrArg Oracle.values he
  refine List.Nodup.map_on ?_ (hrows.filter _)
  intro o ho o' ho' he
  obtain ⟨row, hrow, rfl, hr⟩ := exists_row_of_mem ho
  obtain ⟨row', hrow', rfl, hr'⟩ := exists_row_of_mem ho'
  have hext := h.extends_selection hrow hr
  rw [he] at hext
  rw [h.eq_of_extends hrow hrow' hext (h.extends_selection hrow' hr')]

/-- Every selection of a permutation has a value for each open property and for nothing else. -/
theorem isCombination_of_mem {s : Selection} (hs : s ∈ m'.permutations.flatMap c.selections) :
    IsCombination (m.openBindings (pins ++ more)) s := by
  rw [(selections_perm m' c).mem_iff] at hs
  obtain ⟨o, ho, rfl⟩ := List.mem_map.1 hs
  obtain ⟨row, hrow, rfl, _⟩ := exists_row_of_mem ho
  exact h.isCombination_selection hrow

/-- Over all permutations, every combination of values of the open properties occurs, and nothing else. -/
theorem mem_selections_iff (hlegal : ∀ p ∈ more, m.Legal p.1 p.2)
    (hagree : ∀ p ∈ more, ∀ q ∈ pins, p.1 = q.1 → p.2 = q.2) (s : Selection) :
    s ∈ m'.permutations.flatMap c.selections ↔ IsCombination (m.openBindings (pins ++ more)) s := by
  refine ⟨h.isCombination_of_mem, fun hs => ?_⟩
  obtain ⟨row, hrow, hr, rfl⟩ := h.exists_row hlegal hagree hs
  rw [(selections_perm m' c).mem_iff]
  refine List.mem_map.2 ⟨_, List.mem_filter.2 ⟨List.mem_map.2 ⟨row, (mem_rows_iff _ row).2 hrow, rfl⟩, hr⟩, rfl⟩

end NarrowedLink

end DeferredBinding
