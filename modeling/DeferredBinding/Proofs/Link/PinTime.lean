import DeferredBinding.Proofs.Link.Gathered
import DeferredBinding.Proofs.Link.Precompiled

/-!
# Pins before and after compilation

A property can be pinned before its module is compiled, and then the model is narrowed and enumerated anew; or it is pinned
when the results are linked, and then the combinations that the pin rules out lead to no result. Every permutation of the
narrowed model lies inside one of the full model (`NarrowedLink.existsUnique_owner`). Where it is given the code of that one,
both links record the same answers and leave the same cache files (`link_pinned_alike`).
-/

namespace DeferredBinding

/-! ## Permutations inside permutations -/

/-- A permutation answers for every combination that another one answers for. -/
def Permutation.Owns (p q : Permutation) : Prop :=
  ∀ o ∈ q.oracles, o ∈ p.oracles

instance (p q : Permutation) : Decidable (p.Owns q) :=
  inferInstanceAs (Decidable (∀ o ∈ q.oracles, o ∈ p.oracles))

/-- Values that compile alike after a pin did so before: a pinned property has one value and no groups. -/
theorem Binding.alike_of_pinnedBy {pins : List (String × String)} {b : Binding} {v w : String}
    (h : (b.pinnedBy pins).Alike v w) : b.Alike v w := by
  unfold pinnedBy at h
  split at h
  · refine Or.inl ?_
    simpa [Alike, narrowed] using h
  · exact h

/-- Rows that compile alike after pins did so before. -/
theorem rowsAlike_of_pinnedBy {pins : List (String × String)} {bs : List Binding} {row row' : Row}
    (h : RowsAlike (bs.map (Binding.pinnedBy pins)) row row') : RowsAlike bs row row' := by
  induction bs generalizing row row' with
  | nil => exact h
  | cons b bs ih =>
    match row, row', h with
    | v :: row, w :: row', h => exact ⟨Binding.alike_of_pinnedBy h.1, ih h.2⟩

namespace NarrowedLink

variable {m m' : Model} {pins more : List (String × String)} {c : LinkContext} (h : NarrowedLink m pins more m' c)

include h

/-- A row of the narrowed model is a row of the full one. -/
theorem isRow_of_narrowed {row : Row} (hr : IsRow m'.bindings row) : IsRow m.bindings row := by
  rw [h.bindings_eq, IsRow, List.forall₂_map_left_iff, List.forall₂_iff_zip] at hr
  refine List.forall₂_iff_zip.2 ⟨hr.1, ?_⟩
  intro b v hbv
  exact h.mem_values_of_pinnedBy (List.of_mem_zip hbv).1 (hr.2 hbv)

theorem oracleOf_eq (row : Row) : oracleOf m'.bindings row = oracleOf m.bindings row := by
  unfold oracleOf
  rw [h.map_name_bindings]

/-- Every permutation of the narrowed model lies inside one of the full model. -/
theorem existsUnique_owner {q : Permutation} (hq : q ∈ m'.permutations) :
    ∃! j : Nat, ∃ p : Permutation, m.permutations[j]? = some p ∧ p.Owns q := by
  have hwell := h.reachable.wellFormed
  have hwell' := (h.reachable.of_pinAll h.narrowed).wellFormed
  obtain ⟨o, ho⟩ := List.exists_mem_of_ne_nil _ (oracles_ne_nil hq)
  obtain ⟨row, hrow, rfl⟩ := exists_row_of_mem_oracles hq ho
  obtain ⟨p, hp, hop⟩ := exists_permutation_of_isRow (h.isRow_of_narrowed hrow)
  obtain ⟨j, hj⟩ := List.mem_iff_getElem?.1 hp
  refine ⟨j, ⟨p, hj, fun o' ho' => ?_⟩, ?_⟩
  · obtain ⟨row', hrow', rfl⟩ := exists_row_of_mem_oracles hq ho'
    have halike := (mem_oracles_iff hwell' hq ho hrow').1 ho'
    rw [h.bindings_eq] at halike
    rw [h.oracleOf_eq]
    exact (mem_oracles_iff hwell hp hop (h.isRow_of_narrowed hrow')).2 (rowsAlike_of_pinnedBy halike)
  · rintro k ⟨p', hk, howns⟩
    have ho' := howns _ ho
    rw [h.oracleOf_eq] at ho'
    exact index_eq_of_mem_oracles hwell hk hj ho' hop

end NarrowedLink

/-- Permutations are given the codes of those that they lie inside. -/
def InheritsCodes (ps : List Permutation) (codes : List String) (qs : List Permutation) (codes' : List String) : Prop :=
  ∀ x ∈ ps.zip codes, ∀ y ∈ qs.zip codes', x.1.Owns y.1 → y.2 = x.2

theorem InheritsCodes.code_eq {ps qs : List Permutation} {codes codes' : List String} (h : InheritsCodes ps codes qs codes')
    {i j : Nat} {p q : Permutation} {code code' : String} (hp : ps[i]? = some p) (hcode : codes[i]? = some code)
    (hq : qs[j]? = some q) (hcode' : codes'[j]? = some code') (howns : p.Owns q) : code' = code := by
  have hx : (p, code) ∈ ps.zip codes := List.mem_of_getElem? (List.getElem?_zip_eq_some.2 ⟨hp, hcode⟩)
  have hy : (q, code') ∈ qs.zip codes' := List.mem_of_getElem? (List.getElem?_zip_eq_some.2 ⟨hq, hcode'⟩)
  exact h _ hx _ hy howns

/-! ## Answers -/

/-- A set records that a selection leads to a strong name. -/
def ArtifactSet.Records (s : ArtifactSet) (t : Selection) (name : String) : Prop :=
  ∃ r ∈ s.compilations, r.strongName = name ∧ t ∈ r.selections

section Both

variable {m m' : Model} {pins : List (String × String)} {name name' : String} {codes codes' : List String} {c c' : LinkContext}
  {s s' : ArtifactSet} (h : Linked m [] pins name codes c m s) (h' : Linked m pins [] name' codes' c' m' s')

include h h'

/-- A selection that both links record leads to the same strong name: the permutation that it leads to after narrowing lies
inside the one that it leads to in the full model. -/
theorem strongName_eq_of_pinned (hcodes : InheritsCodes m.permutations codes m'.permutations codes') {r r' : CompiledResult}
    (hr : r ∈ s.compilations) (hr' : r' ∈ s'.compilations) {t : Selection} (ht : t ∈ r.selections) (ht' : t ∈ r'.selections) :
    r.strongName = r'.strongName := by
  obtain ⟨i, code, hcode, hname, howner⟩ := h.exists_owner hr ht
  obtain ⟨i', code', hcode', hname', howner'⟩ := h'.exists_owner hr' ht'
  rw [List.append_nil] at howner'
  obtain ⟨q, hq, o, ho, hext⟩ := (howner' i').2 rfl
  obtain ⟨j, ⟨p, hp, howns⟩, -⟩ := h'.narrowed.existsUnique_owner (List.mem_of_getElem? hq)
  obtain rfl : j = i := (howner j).1 ⟨p, hp, o, howns o ho, hext⟩
  rw [hname, hname', hcodes.code_eq hp hcode hq hcode' howns]

/-- Both links record the same selections. -/
theorem mem_selections_iff_of_pinned (hlegal : ∀ p ∈ pins, m.Legal p.1 p.2) (t : Selection) :
    t ∈ s.compilations.flatMap (·.selections) ↔ t ∈ s'.compilations.flatMap (·.selections) := by
  rw [h.mem_selections_iff, h'.mem_selections_iff, h.narrowed.mem_selections_iff hlegal (by simp),
    h'.narrowed.mem_selections_iff (by simp) (by simp), List.append_nil]
  rfl

theorem records_iff_of_pinned (hlegal : ∀ p ∈ pins, m.Legal p.1 p.2)
    (hcodes : InheritsCodes m.permutations codes m'.permutations codes') (t : Selection) (n : String) :
    s.Records t n ↔ s'.Records t n := by
  have hmem := mem_selections_iff_of_pinned h h' hlegal t
  constructor
  · rintro ⟨r, hr, rfl, ht⟩
    obtain ⟨r', hr', ht'⟩ := List.mem_flatMap.1 (hmem.1 (List.mem_flatMap.2 ⟨r, hr, ht⟩))
    exact ⟨r', hr', (strongName_eq_of_pinned h h' hcodes hr hr' ht ht').symm, ht'⟩
  · rintro ⟨r', hr', rfl, ht'⟩
    obtain ⟨r, hr, ht⟩ := List.mem_flatMap.1 (hmem.2 (List.mem_flatMap.2 ⟨r', hr', ht'⟩))
    exact ⟨r, hr, strongName_eq_of_pinned h h' hcodes hr hr' ht ht', ht⟩

end Both

/-! ## Files -/

/-- A file is deployed for a result: it is public and has the name that belongs to a strong name. -/
def Emitted.IsCacheFile (e : Emitted) : Prop :=
  e.isPublic = true ∧ ∃ name, e.path = cacheFile name

/-- The names of cache files tell the strong names. -/
theorem cacheFile_injective : Function.Injective cacheFile := by
  intro a b h
  exact String.append_left_inj _ |>.1 h

/-- A path that ends otherwise is not the name of a cache file. -/
theorem ne_cacheFile {path : String} (h : path.toList.reverse.take 9 ≠ "sj.ehcac.".toList) (name : String) :
    path ≠ cacheFile name := by
  rintro rfl
  simp [cacheFile] at h

/-- No script has the name of a cache file. -/
theorem scriptFile_ne_cacheFile (moduleName name : String) : Dispatch.scriptFile moduleName ≠ cacheFile name :=
  ne_cacheFile (by simp [Dispatch.scriptFile]) name

namespace ArtifactSet

/-- An artifact of another identity stays where it is. -/
theorem mem_place_of_ne {a b : Artifact} {l : List Artifact} (hb : b ∈ l) (hne : b.identity ≠ a.identity) : b ∈ place a l := by
  induction l with
  | nil => nomatch hb
  | cons d l ih =>
    simp only [place]
    rcases List.mem_cons.1 hb with rfl | hb
    · rw [if_neg hne]
      exact List.mem_cons_self
    · split
      · exact List.mem_cons_of_mem _ hb
      · exact List.mem_cons_of_mem _ (ih hb)

/-- The files of a set are the artifacts that are files. -/
theorem mem_emitted_iff (s : ArtifactSet) (e : Emitted) : e ∈ s.emitted ↔ .emitted e ∈ s.entries := by
  unfold emitted
  rw [List.mem_filterMap]
  constructor
  · rintro ⟨a, ha, he⟩
    cases a with
    | emitted f =>
      obtain rfl := Option.some.inj he
      exact ha
    | compilation r => nomatch he
  · intro he
    exact ⟨_, he, rfl⟩

end ArtifactSet

namespace Dispatch

/-- Where no file has the name of a cache file before, the cache files that the standard linker leaves are those of the results
that some selection leads to. -/
theorem mem_emitted_withFiles {c : LinkContext} {s : ArtifactSet} {table : List Answer}
    (hd : (s.compilations.map (·.strongName)).Nodup) (hfree : ∀ e ∈ s.emitted, ∀ name, e.path ≠ cacheFile name) {e : Emitted}
    {name : String} (he : e.path = cacheFile name) :
    e ∈ (withFiles c s table).emitted ↔ ∃ r ∈ selected s, e = .ofText linkerName (cacheFile r.strongName) r.code := by
  have hnew : (s.addAll ((selected s).map cacheArtifact)).entries = s.entries ++ (selected s).map cacheArtifact := by
    refine ArtifactSet.entries_addAll_of_new ?_ ?_
    · have hsel : ((selected s).map (·.strongName)).Nodup := hd.sublist (List.filter_sublist.map _)
      rw [List.map_map]
      refine List.pairwise_map.2 ((List.pairwise_map.1 hsel).imp fun {a b} hne heq => hne ?_)
      exact cacheFile_injective (congrArg ArtifactId.key heq)
    · intro a ha hmem
      obtain ⟨r, -, rfl⟩ := List.mem_map.1 ha
      obtain ⟨b, hb, hid⟩ := List.mem_map.1 hmem
      cases b with
      | emitted f => exact hfree f ((s.mem_emitted_iff f).2 hb) _ (congrArg ArtifactId.key hid)
      | compilation r' => exact nomatch congrArg ArtifactId.kind hid
  rw [ArtifactSet.mem_emitted_iff]
  unfold withFiles
  constructor
  · intro hmem
    rcases ArtifactSet.mem_place hmem with heq | hmem
    · obtain rfl := Artifact.emitted.inj heq
      exact absurd he (scriptFile_ne_cacheFile _ _)
    · rw [hnew, List.mem_append] at hmem
      rcases hmem with hmem | hmem
      · exact absurd he (hfree e ((s.mem_emitted_iff e).2 hmem) name)
      · obtain ⟨r, hr, heq⟩ := List.mem_map.1 hmem
        exact ⟨r, hr, (Artifact.emitted.inj heq).symm⟩
  · rintro ⟨r, hr, rfl⟩
    refine ArtifactSet.mem_place_of_ne ?_ fun hid => ?_
    · rw [hnew]
      exact List.mem_append_right _ (List.mem_map_of_mem hr)
    · exact scriptFile_ne_cacheFile _ _ (congrArg ArtifactId.key hid).symm

end Dispatch

/-- A link of a precompiled record leaves the codes of its results as cache files, except those that nothing leads to. -/
theorem PrecompiledLink.exists_deployed {mod : Module} {pins : List (String × String)} {record : Record} {files : List Path}
    {codes : List String} {options : LinkOptions} {machine : Machine}
    (h : PrecompiledLink mod pins record files codes options machine.disk)
    (hfree : ∀ e ∈ record.generated.emitted, ∀ name, e.path ≠ cacheFile name) :
    ∃ (s : ArtifactSet) (machine' : Machine) (c : LinkContext) (m : Model),
      perform (link mod record files options) machine = (.ok s, machine') ∧ record.permutations = m.permutations ∧
        Linked mod.properties pins options.pins mod.name codes c m s ∧
        (∀ r ∈ s.compilations, r.code ∈ codes ∧ codeName r.code = r.strongName) ∧
        ∀ (e : Emitted) (name : String), e.path = cacheFile name → (e ∈ s.emitted ↔ ∃ r ∈ s.compilations,
          r.selections ≠ [] ∧ e = .ofText Dispatch.linkerName (cacheFile r.strongName) r.code) := by
  obtain ⟨s, machine', c, m, hlink, hperms, hlinked⟩ := h.perform_link
  obtain ⟨l, _, _, hlink', -, -, -, hgenerated, hinitial, hresults⟩ := h.exists_linking
  obtain rfl := Except.ok.inj (Prod.mk.inj (hlink.symm.trans hlink')).1
  have hcompilations := Dispatch.compilations_withFiles l.context l.initial
    (l.initial.compilations.flatMap Dispatch.answersOf)
  have hgathered : l.results = gathered (compiledAll l.context.selections record.permutations codes) :=
    hresults.trans (mergeAll_gathered [] _)
  have hfree' : ∀ e ∈ l.initial.emitted, ∀ name, e.path ≠ cacheFile name := by
    intro e he
    rw [ArtifactSet.mem_emitted_iff] at he
    rcases ArtifactSet.mem_entries_addAll he with he | he
    · rw [hgenerated] at he
      exact hfree e ((ArtifactSet.mem_emitted_iff _ e).2 he)
    · rcases ArtifactSet.mem_entries_addAll he with he | he
      · obtain ⟨r, -, heq⟩ := List.mem_map.1 he
        nomatch heq
      · nomatch he
  refine ⟨_, machine', c, m, hlink, hperms, hlinked, fun r hr => ?_, fun e name he => ?_⟩
  · rw [hcompilations, hinitial, hgathered, mem_gathered h.length_permutations] at hr
    obtain ⟨name, hname, rfl⟩ := hr
    rw [← strongNames_compiledAll h.length_permutations] at hname
    exact code_resultOf hname
  · have hdistinct := hlinked.merges.distinct
    rw [hcompilations] at hdistinct ⊢
    rw [Dispatch.mem_emitted_withFiles hdistinct hfree' he]
    simp [Dispatch.selected, and_assoc]

/-! ## Both ways of pinning -/

/-- Two sets deploy the same: they record the same answers and have the same cache files, one for each answer. -/
structure DeploysAlike (s s' : ArtifactSet) : Prop where
  answers : ∀ t name, s.Records t name ↔ s'.Records t name
  files : ∀ e : Emitted, e.IsCacheFile → (e ∈ s.emitted ↔ e ∈ s'.emitted)
  served : ∀ t name, s.Records t name → ∃ e ∈ s.emitted, e.IsCacheFile ∧ e.path = cacheFile name

/-- Pins that are applied to a full record when it is linked deploy what they deploy when the model was narrowed by them before
its permutations were compiled. -/
theorem link_pinned_alike {mod : Module} {pins : List (String × String)} {full pinned : Record} {files files' : List Path}
    {codes codes' : List String} {registry registry' : Registry} {machine machine' : Machine}
    (hfull : PrecompiledLink mod [] full files codes ⟨pins, registry⟩ machine.disk)
    (hpinned : PrecompiledLink mod pins pinned files' codes' ⟨[], registry'⟩ machine'.disk)
    (hcodes : InheritsCodes full.permutations codes pinned.permutations codes')
    (hfree : ∀ e ∈ full.generated.emitted ++ pinned.generated.emitted, ∀ name, e.path ≠ cacheFile name)
    (hdiffer : ∀ x ∈ codes, ∀ y ∈ codes, codeName x = codeName y → x = y) :
    (∀ q ∈ pinned.permutations, ∃! j : Nat, ∃ p : Permutation, full.permutations[j]? = some p ∧ p.Owns q) ∧
      ∃ s s' done done', perform (link mod full files ⟨pins, registry⟩) machine = (.ok s, done) ∧
        perform (link mod pinned files' ⟨[], registry'⟩) machine' = (.ok s', done') ∧ DeploysAlike s s' := by
  obtain ⟨s, done, c, m, hlink, hperms, hl, hcoded, hfile⟩ :=
    hfull.exists_deployed fun e he => hfree e (List.mem_append_left _ he)
  obtain ⟨s', done', c', m', hlink', hperms', hl', hcoded', hfile'⟩ :=
    hpinned.exists_deployed fun e he => hfree e (List.mem_append_right _ he)
  obtain rfl : mod.properties = m := Except.ok.inj hl.narrowed.narrowed
  rw [hperms, hperms'] at hcodes ⊢
  have hrecords := records_iff_of_pinned hl hl' hfull.legal hcodes
  -- every code of the narrowed model is one of the full model
  have hsub : ∀ x ∈ codes', x ∈ codes := by
    intro x hx
    obtain ⟨i, hi⟩ := List.mem_iff_getElem?.1 hx
    obtain ⟨q, hq, -⟩ := getElem?_compiledAll (f := c'.selections) hl'.counted hi
    obtain ⟨j, ⟨p, hp, howns⟩, -⟩ := hl'.narrowed.existsUnique_owner (List.mem_of_getElem? hq)
    obtain ⟨y, hy⟩ : ∃ y, codes[j]? = some y := by
      have hj := (List.getElem?_eq_some_iff.1 hp).1
      rw [hl.counted] at hj
      exact ⟨_, List.getElem?_eq_getElem hj⟩
    rw [hcodes.code_eq hp hy hq hi howns]
    exact List.mem_of_getElem? hy
  -- results of one name that both links record have one code
  have hcode : ∀ r ∈ s.compilations, ∀ r' ∈ s'.compilations, r.strongName = r'.strongName → r.code = r'.code := by
    intro r hr r' hr' hname
    refine hdiffer _ (hcoded r hr).1 _ (hsub _ (hcoded' r' hr').1) ?_
    rw [(hcoded r hr).2, (hcoded' r' hr').2, hname]
  refine ⟨fun q hq => hl'.narrowed.existsUnique_owner hq, s, s', done, done', hlink, hlink', hrecords, ?_, ?_⟩
  · rintro e ⟨-, name, he⟩
    rw [hfile e name he, hfile' e name he]
    constructor
    · rintro ⟨r, hr, hne, rfl⟩
      obtain ⟨t, ht⟩ := List.exists_mem_of_ne_nil _ hne
      obtain ⟨r', hr', hname, ht'⟩ := (hrecords t r.strongName).1 ⟨r, hr, rfl, ht⟩
      exact ⟨r', hr', List.ne_nil_of_mem ht', by rw [hname, hcode r hr r' hr' hname.symm]⟩
    · rintro ⟨r', hr', hne, rfl⟩
      obtain ⟨t, ht⟩ := List.exists_mem_of_ne_nil _ hne
      obtain ⟨r, hr, hname, ht'⟩ := (hrecords t r'.strongName).2 ⟨r', hr', rfl, ht⟩
      exact ⟨r, hr, List.ne_nil_of_mem ht', by rw [hname, hcode r hr r' hr' hname]⟩
  · rintro t name ⟨r, hr, rfl, ht⟩
    exact ⟨_, (hfile _ r.strongName rfl).2 ⟨r, hr, List.ne_nil_of_mem ht, rfl⟩, ⟨rfl, _, rfl⟩, rfl⟩

/-- `browsers` with its first property pinned to a value that compiles like another one. -/
def pinnedBrowsers : Model :=
  { browsers with bindings := browsers.bindings.map (Binding.pinnedBy [("agent", "ie8")]) }

/-- A record of `greeter` that was made of a model and pins. -/
def greeterRecordOf (m : Model) (pins : List (String × String)) : Record where
  moduleName := "hello"
  style := .obfuscated
  body := "greet"
  permutations := m.permutations
  pins := Dict.ofList pins
  generated := .ofList [.emitted (.ofText "generator" "logo.svg" "<svg/>")]

/-- A machine with four codes, two of which are the same. -/
def fullMachine : Machine where
  disk := ⟨.directory [("0.js", .file "hello".toUTF8), ("1.js", .file "bonjour".toUTF8), ("2.js", .file "hello".toUTF8),
    ("3.js", .file "salut".toUTF8)], []⟩
  notes := []

/-- The pinned value is in a group with one that is ruled out, and one code is shared with a permutation that is. -/
theorem greeter_pinned_alike :
    InheritsCodes browsers.permutations ["hello", "bonjour", "hello", "salut"] pinnedBrowsers.permutations ["hello", "bonjour"] ∧
      ∃ s s' done done',
        perform (link greeter (greeterRecordOf browsers []) [⟨"0.js"⟩, ⟨"1.js"⟩, ⟨"2.js"⟩, ⟨"3.js"⟩]
            ⟨[("agent", "ie8")], .builtin⟩) fullMachine = (.ok s, done) ∧
          perform (link greeter (greeterRecordOf pinnedBrowsers [("agent", "ie8")]) [⟨"0.js"⟩, ⟨"1.js"⟩]
            ⟨[], .builtin⟩) fullMachine = (.ok s', done') ∧ DeploysAlike s s' := by
  have hlegal : greeter.properties.Legal "agent" "ie8" := Or.inl ⟨_, List.mem_cons_self .., rfl, by decide⟩
  have hfull : PrecompiledLink greeter [] (greeterRecordOf browsers []) [⟨"0.js"⟩, ⟨"1.js"⟩, ⟨"2.js"⟩, ⟨"3.js"⟩]
      ["hello", "bonjour", "hello", "salut"] ⟨[("agent", "ie8")], .builtin⟩ fullMachine.disk :=
    { reachable := browsers_reachable, linkers := rfl, registered := rfl, narrowed := ⟨_, rfl, rfl⟩, recorded := rfl,
      named := rfl, generated := by decide, legal := by simpa using hlegal, counted := by decide,
      readable := .cons ⟨_, rfl, rfl⟩ (.cons ⟨_, rfl, rfl⟩ (.cons ⟨_, rfl, rfl⟩ (.cons ⟨_, rfl, rfl⟩ .nil))) }
  have hpinned : PrecompiledLink greeter [("agent", "ie8")] (greeterRecordOf pinnedBrowsers [("agent", "ie8")])
      [⟨"0.js"⟩, ⟨"1.js"⟩] ["hello", "bonjour"] ⟨[], .builtin⟩ fullMachine.disk :=
    { reachable := browsers_reachable, linkers := rfl, registered := rfl, narrowed := ⟨_, rfl, rfl⟩, recorded := rfl,
      named := rfl, generated := by decide, legal := by simp, counted := by decide,
      readable := .cons ⟨_, rfl, rfl⟩ (.cons ⟨_, rfl, rfl⟩ .nil) }
  have hcodes : InheritsCodes browsers.permutations ["hello", "bonjour", "hello", "salut"] pinnedBrowsers.permutations
      ["hello", "bonjour"] := by
    unfold InheritsCodes
    decide
  have hfree : ∀ e ∈ (greeterRecordOf browsers []).generated.emitted ++
      (greeterRecordOf pinnedBrowsers [("agent", "ie8")]).generated.emitted, ∀ name, e.path ≠ cacheFile name := by
    intro e he
    have hgenerated : ∀ m pins, (greeterRecordOf m pins).generated.emitted = [.ofText "generator" "logo.svg" "<svg/>"] :=
      fun _ _ => rfl
    obtain rfl : e = .ofText "generator" "logo.svg" "<svg/>" := by
      rw [hgenerated, hgenerated] at he
      simpa using he
    exact ne_cacheFile (by decide)
  exact ⟨hcodes, (link_pinned_alike hfull hpinned hcodes hfree (by decide +kernel)).2⟩

end DeferredBinding
