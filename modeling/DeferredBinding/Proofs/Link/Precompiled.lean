import DeferredBinding.Proofs.Artifact.Set
import DeferredBinding.Proofs.Link.Combination
import DeferredBinding.Proofs.Link.Merge

/-!
# Links of precompiled records

A precompile narrows the model of a module by pins and records the permutations that are left. `PrecompiledLink` says that a
link is given such a record, a readable result for each permutation, and legal pins. It always succeeds
(`PrecompiledLink.perform_link`), and where its pins agree with the recorded ones its results answer every combination of values
of the open properties once (`link_isDispatch`).
-/

namespace DeferredBinding

/-! ## The dispatch table -/

namespace Dispatch

/-- Rows for different selections all enter a table. -/
theorem foldlM_addAnswer_eq_ok {rows table : List Answer} (h : ((table ++ rows).map (·.selection)).Nodup) :
    rows.foldlM addAnswer table = .ok (table ++ rows) := by
  induction rows generalizing table with
  | nil => rw [List.append_nil]; rfl
  | cons a rows ih =>
    have hnone : answer? table a.selection = none := by
      rw [answer?, Option.map_eq_none_iff, List.find?_eq_none]
      intro b hb he
      rw [List.map_append, List.nodup_append] at h
      exact h.2.2 _ (List.mem_map_of_mem hb) _ (List.mem_map_of_mem (List.mem_cons_self ..)) (beq_iff_eq.1 he)
    have hstep : addAnswer table a = .ok (table ++ [a]) := by rw [addAnswer, hnone]
    rw [List.append_cons] at h ⊢
    rw [List.foldlM_cons, hstep]
    exact ih h

/-- The rows of a list of results are about their selections, in order. -/
theorem map_selection_answersOf (results : List CompiledResult) :
    (results.flatMap answersOf).map (·.selection) = results.flatMap (·.selections) := by
  rw [List.map_flatMap]
  refine List.flatMap_congr fun r _ => ?_
  rw [answersOf, List.map_map]
  exact List.map_id' _

/-- Results that share no selection have a table with a row for each selection. -/
theorem table_eq_ok {results : List CompiledResult} (h : (results.flatMap (·.selections)).Nodup) :
    table results = .ok (results.flatMap answersOf) := by
  have hrows : (([] ++ results.flatMap answersOf).map Answer.selection).Nodup := by
    rw [List.nil_append, map_selection_answersOf]
    exact h
  exact foldlM_addAnswer_eq_ok hrows

/-- What is made of selections is not lost with the results that have none. -/
theorem flatMap_selected {α : Type} (f : CompiledResult → List α) (hf : ∀ r, r.selections = [] → f r = []) (s : ArtifactSet) :
    (selected s).flatMap f = s.compilations.flatMap f := by
  rw [selected]
  induction s.compilations with
  | nil => rfl
  | cons r rs ih =>
    cases hr : r.selections with
    | nil => simp [hr, hf r hr, ih]
    | cons t l => simp [hr, ih]

/-- The script of a table as an artifact. -/
def scriptArtifact (c : LinkContext) (table : List Answer) : Artifact :=
  .emitted (.ofText linkerName (scriptFile c.moduleName) (script c table))

/-- A set with the files of its results and the script of a table. -/
def withFiles (c : LinkContext) (s : ArtifactSet) (table : List Answer) : ArtifactSet :=
  (s.addAll ((selected s).map cacheArtifact)).add (scriptArtifact c table)

/-- Where no selection is recorded twice, the standard linker adds the files of the results and the script of their table. -/
theorem run_eq_ok (c : LinkContext) {s : ArtifactSet} (h : (s.compilations.flatMap (·.selections)).Nodup) :
    run c s = .ok (withFiles c s (s.compilations.flatMap answersOf)) := by
  have hsel : ((selected s).flatMap (·.selections)).Nodup := by
    rw [flatMap_selected _ fun r hr => hr]
    exact h
  have hrows : (selected s).flatMap answersOf = s.compilations.flatMap answersOf :=
    flatMap_selected _ (fun r hr => by rw [answersOf, hr]; rfl) s
  rw [run, table_eq_ok hsel, hrows]
  rfl

/-- The files leave the results as they are. -/
theorem compilations_withFiles (c : LinkContext) (s : ArtifactSet) (table : List Answer) :
    (withFiles c s table).compilations = s.compilations := by
  have hfiles : ∀ a ∈ (selected s).map cacheArtifact, a.kind = .emitted := by
    intro a ha
    obtain ⟨r, _, rfl⟩ := List.mem_map.1 ha
    rfl
  exact (ArtifactSet.compilations_place_emitted _ _).trans (ArtifactSet.compilations_addAll_of_emitted hfiles)

end Dispatch

/-! ## The start of a link -/

/-- A link is given a module with the standard linker, a record of the permutations that pins of its model leave, a readable
result for each of them, files that were generated on the way, and further legal pins. -/
structure PrecompiledLink (mod : Module) (pins : List (String × String)) (record : Record) (files : List Path)
    (codes : List String) (options : LinkOptions) (disk : Disk) : Prop where
  reachable : mod.properties.Reachable
  linkers : mod.linkers = [Dispatch.linkerName]
  registered : options.registry.get? Dispatch.linkerName = some Dispatch.linker
  narrowed : ∃ m, mod.properties.pinAll pins = .ok m ∧ record.permutations = m.permutations
  recorded : record.pins = Dict.ofList pins
  named : record.moduleName = mod.name
  generated : ∀ a ∈ record.generated.entries, a.kind = .emitted
  legal : ∀ p ∈ options.pins, mod.properties.Legal p.1 p.2
  counted : files.length = record.permutations.length
  readable : List.Forall₂ disk.Holds files codes

/-- Of a well-formed model, a link with legal pins has decided every binding property by the last pin of its name. -/
theorem exists_pinned_context {m : Model} (h : m.WellFormed) {c : LinkContext} (hc : c.properties = m.selectionProperties)
    {pins more : List (String × String)} (hpins : ∀ p ∈ pins, m.Legal p.1 p.2) (hmore : ∀ p ∈ more, m.Legal p.1 p.2) :
    ∃ c₁ c₂ : LinkContext, c.pinAll (Dict.ofList pins).entries = .ok c₁ ∧ c₁.pinAll more = .ok c₂ ∧
      c₂.Decides m (pins ++ more) ∧ c₂.moduleName = c.moduleName ∧ c₂.style = c.style := by
  have hlookup : ∀ name, List.lookup name (Dict.ofList pins).entries.reverse = List.lookup name pins.reverse := by
    intro name
    rw [lookup_reverse (Dict.ofList pins).names_nodup, ← Dict.get?_ofList]
    rfl
  have hfirst : ∀ p ∈ (Dict.ofList pins).entries, ∃ q, c.property? p.1 = some q ∧ q.allows p.2 = true := by
    rintro ⟨name, value⟩ hp
    have hv := ((Dict.ofList pins).get?_eq_some_iff name value).2 hp
    rw [Dict.get?_ofList] at hv
    rw [LinkContext.property?, hc]
    exact LinkContext.allows_of_legal h (hpins _ (List.mem_reverse.1 (mem_of_lookup_eq_some hv)))
  obtain ⟨ps₁, hps₁, hget₁⟩ := LinkContext.pinAll_eq_ok hfirst
  have hsecond : ∀ p ∈ more, ∃ q, ({ c with properties := ps₁ } : LinkContext).property? p.1 = some q ∧ q.allows p.2 = true := by
    intro p hp
    obtain ⟨q, hq, hv⟩ := LinkContext.allows_of_legal h (hmore p hp)
    refine ⟨LinkContext.decidedBy (Dict.ofList pins).entries p.1 q, ?_, hv⟩
    rw [LinkContext.property?, hget₁, LinkContext.property?, hc, hq]
    rfl
  obtain ⟨ps₂, hps₂, hget₂⟩ := LinkContext.pinAll_eq_ok hsecond
  refine ⟨_, _, hps₁, hps₂, fun b hb => ?_, rfl, rfl⟩
  refine ⟨LinkContext.decidedBy more b.name (LinkContext.decidedBy (Dict.ofList pins).entries b.name (.ofBinding b)), ?_, rfl, ?_⟩
  · rw [LinkContext.property?, hget₂, LinkContext.property?, hget₁, LinkContext.property?, hc,
      LinkContext.get?_of_mem_bindings h hb]
    rfl
  · simp only [LinkContext.decidedBy, SelectionProperty.ofBinding, hlookup, Binding.decided?, List.reverse_append,
      List.lookup_append, Option.or_assoc]

/-- The chain of the standard linker alone. -/
theorem buildChain_standard {r : Registry} (h : r.get? Dispatch.linkerName = some Dispatch.linker) :
    r.buildChain [Dispatch.linkerName] = .ok [Dispatch.linker] := by
  have hcreate : Registry.create r Dispatch.linkerName = .ok Dispatch.linker := by rw [Registry.create, h]
  rw [Registry.buildChain, List.mapM_cons, hcreate]
  rfl

namespace PrecompiledLink

variable {mod : Module} {pins : List (String × String)} {record : Record} {files : List Path} {codes : List String}
  {options : LinkOptions} {disk : Disk} (h : PrecompiledLink mod pins record files codes options disk)

include h

/-- The link starts with the standard linker and has decided the properties by the recorded and the further pins. -/
theorem exists_prepare :
    ∃ (c : LinkContext) (m : Model), Linking.prepare mod record options = .ok ⟨c, [Dispatch.linker], [], .empty⟩ ∧
      NarrowedLink mod.properties pins options.pins m c ∧ record.permutations = m.permutations ∧ c.moduleName = mod.name := by
  obtain ⟨m, hm, hperms⟩ := h.narrowed
  have hlegal := (h.reachable.wellFormed.pinAll_eq_ok hm).1
  have hstart : (LinkContext.start mod record.style [Dispatch.linkerName]).properties = mod.properties.selectionProperties := rfl
  obtain ⟨c₁, c₂, h₁, h₂, hdec, hname, _⟩ := exists_pinned_context h.reachable.wellFormed hstart hlegal h.legal
  refine ⟨c₂, m, ?_, ⟨h.reachable, hm, hdec⟩, hperms, hname⟩
  have hchain : options.registry.buildChain mod.linkers = .ok [Dispatch.linker] := by
    rw [h.linkers]
    exact buildChain_standard h.registered
  have hpins : (Linking.start mod record.style [Dispatch.linker]).context.pinAll record.pins.entries = .ok c₁ := by
    rw [h.recorded]
    exact h₁
  rw [Linking.prepare, hchain]
  simp only [bind, Except.bind, hpins, h₂]
  rfl

end PrecompiledLink

/-- The answers of the permutations that are left are legal, so every permutation has its selections. -/
theorem NarrowedLink.selectionsFor_eq_ok {m m' : Model} {pins more : List (String × String)} {c : LinkContext}
    (h : NarrowedLink m pins more m' c) {p : Permutation} (hp : p ∈ m'.permutations) :
    Linking.selectionsFor c p = .ok (c.selections p) := by
  refine LinkContext.selectionsFor_eq_ok fun o ho a ha => ?_
  obtain ⟨row, hr, rfl⟩ := exists_row_of_mem_oracles hp ho
  have hv := lookup_eq_some_of_mem (h.nodup_pairs hr) ha
  obtain ⟨b', hb', hname⟩ := exists_name_of_valueOf? hr hv
  rw [h.bindings_eq] at hb'
  obtain ⟨b, hb, rfl⟩ := List.mem_map.1 hb'
  rw [b.name_pinnedBy pins] at hname
  obtain ⟨v, hvb, hv'⟩ := h.exists_valueOf? hr hb
  obtain ⟨q, hq, hvalues, _⟩ := h.decides b hb
  rw [hname] at hv' hq
  refine ⟨q, hq, ?_⟩
  rw [SelectionProperty.allows, hvalues, List.contains_iff_mem, Option.some.inj (hv.symm.trans hv')]
  exact hvb

/-! ## The whole link -/

/-- What a link comes to: it has decided the properties of a narrowed model, its results are those of the permutations, each led
to by its selections, and the script is that of the table of these results. -/
structure Linked (m : Model) (pins more : List (String × String)) (name : String) (codes : List String) (c : LinkContext)
    (m' : Model) (s : ArtifactSet) : Prop where
  narrowed : NarrowedLink m pins more m' c
  named : c.moduleName = name
  counted : m'.permutations.length = codes.length
  merges : Merges (compiledAll c.selections m'.permutations codes) s.compilations
  script : s.get? ⟨.emitted, Dispatch.scriptFile name⟩ =
    some (Dispatch.scriptArtifact c (s.compilations.flatMap Dispatch.answersOf))

/-- The selections of permutations that each have a code. -/
theorem flatMap_selections_compiledAll (f : Permutation → List Selection) {ps : List Permutation} {codes : List String}
    (h : ps.length = codes.length) : (compiledAll f ps codes).flatMap (·.selections) = ps.flatMap f := by
  induction ps generalizing codes with
  | nil => rfl
  | cons p ps ih =>
    cases codes with
    | nil => nomatch h
    | cons code codes =>
      have hrest := ih (Nat.succ.inj h)
      rw [compiledAll, List.zipWith_cons_cons, List.flatMap_cons, List.flatMap_cons]
      exact congrArg (f p ++ ·) hrest

/-- Where the other artifacts are files, the chain starts from the results of the link. -/
theorem Linking.compilations_initial {l : Linking} (hd : (l.results.map (·.strongName)).Nodup)
    (hf : ∀ a ∈ l.artifacts.entries, a.kind = .emitted) : l.initial.compilations = l.results := by
  rw [initial, ArtifactSet.compilations_addAll_of_emitted hf, ArtifactSet.compilations_ofList hd]

/-- The chain of the standard linker alone gives what the linker gives. -/
theorem Linking.perform_invoke_standard {l : Linking} {s : ArtifactSet} (hl : l.linkers = [Dispatch.linker])
    (hs : Dispatch.run l.context l.initial = .ok s) (machine : Machine) :
    ∃ machine', perform l.invoke machine = (.ok s, machine') := by
  have hrun : Dispatch.linker.run l.context l.initial = .ok s := hs
  rw [invoke, hl, runLinkers, perform_bind_of_ok (perform_lift ..),
    perform_bind_of_ok (a := s) (by rw [perform_except, hrun])]
  exact ⟨_, rfl⟩

section

variable {mod : Module} {pins : List (String × String)} {record : Record} {files : List Path} {codes : List String}
  {options : LinkOptions} {machine : Machine} (h : PrecompiledLink mod pins record files codes options machine.disk)

include h

theorem PrecompiledLink.length_permutations : record.permutations.length = codes.length := by
  rw [← h.counted]
  exact h.readable.length_eq

/-- A link of a precompiled record succeeds, and what it gives is the set that its chain starts from, with the files of its
results and the script. -/
theorem PrecompiledLink.exists_linking :
    ∃ (l : Linking) (m : Model) (machine' : Machine),
      perform (link mod record files options) machine =
          (.ok (Dispatch.withFiles l.context l.initial (l.initial.compilations.flatMap Dispatch.answersOf)), machine') ∧
        NarrowedLink mod.properties pins options.pins m l.context ∧ record.permutations = m.permutations ∧
        l.context.moduleName = mod.name ∧ l.artifacts = record.generated ∧ l.initial.compilations = l.results ∧
        l.results = mergeAll (compiledAll l.context.selections record.permutations codes) [] := by
  obtain ⟨c, m, hprep, hnar, hperms, hname⟩ := h.exists_prepare
  have hlen : ¬record.permutations.length ≠ files.length := by simp [h.counted]
  have hmod : ¬record.moduleName ≠ mod.name := by simp [h.named]
  have hsel : ∀ p ∈ record.permutations, Linking.selectionsFor c p = .ok (c.selections p) := by
    rw [hperms]
    exact fun p hp => hnar.selectionsFor_eq_ok hp
  obtain ⟨machine₁, hlog, hdisk⟩ : ∃ machine₁ : Machine,
      perform (liftM (Host.log ⟨.info, Linking.linkOrigin, "Linking module " ++ mod.name⟩ : StateM Machine Unit)) machine =
        (.ok (), machine₁) ∧ machine₁.disk = machine.disk := ⟨_, rfl, rfl⟩
  have hread : List.Forall₂ machine₁.disk.Holds files codes := by
    rw [hdisk]
    exact h.readable
  obtain ⟨machine₂, hfinish, _⟩ :=
    Linking.perform_finishAll (l := ⟨c, [Dispatch.linker], [], .empty⟩) hsel hread
  have hmerges := merges_mergeAll (compiledAll c.selections record.permutations codes)
  -- the chain starts from the results, which share no selection
  let l : Linking := (⟨c, [Dispatch.linker], mergeAll (compiledAll c.selections record.permutations codes) [], .empty⟩ :
    Linking).addArtifacts record.generated
  have hgenerated : l.artifacts = record.generated := ArtifactSet.ofList_entries _
  have hinitial : l.initial.compilations = l.results := by
    refine Linking.compilations_initial hmerges.distinct ?_
    rw [hgenerated]
    exact h.generated
  have honce : (l.initial.compilations.flatMap (·.selections)).Nodup := by
    rw [hinitial]
    refine hmerges.nodup_selections ?_
    rw [flatMap_selections_compiledAll _ h.length_permutations, hperms]
    exact hnar.nodup_selections
  have hrun := Dispatch.run_eq_ok c honce
  obtain ⟨machine₃, hinvoke⟩ := Linking.perform_invoke_standard (l := l) rfl hrun machine₂
  obtain ⟨machine₄, hlink⟩ : ∃ machine₄, perform (link mod record files options) machine =
      (.ok (Dispatch.withFiles c l.initial (l.initial.compilations.flatMap Dispatch.answersOf)), machine₄) := by
    rw [link, if_neg hlen, if_neg hmod, perform_bind_of_ok (by rw [perform_except, hprep]), perform_bind_of_ok hlog,
      perform_bind_of_ok hfinish, perform_bind_of_ok hinvoke]
    exact ⟨_, rfl⟩
  exact ⟨l, m, machine₄, hlink, hnar, hperms, hname, hgenerated, hinitial, rfl⟩

/-- What a link of a precompiled record gives. -/
theorem PrecompiledLink.perform_link :
    ∃ (s : ArtifactSet) (machine' : Machine) (c : LinkContext) (m : Model),
      perform (link mod record files options) machine = (.ok s, machine') ∧
        record.permutations = m.permutations ∧ Linked mod.properties pins options.pins mod.name codes c m s := by
  obtain ⟨l, m, machine', hlink, hnar, hperms, hname, _, hinitial, hresults⟩ := h.exists_linking
  refine ⟨_, machine', l.context, m, hlink, hperms, hnar, hname, hperms ▸ h.length_permutations, ?_, ?_⟩
  · rw [Dispatch.compilations_withFiles, hinitial, hresults, hperms]
    exact merges_mergeAll _
  · rw [Dispatch.compilations_withFiles, Dispatch.withFiles, ArtifactSet.get?_add, if_pos]
    rw [← hname]
    rfl

end

/-! ## Dispatch -/

/-- The permutation at a place of a list has an oracle that extends a selection. -/
def ExtendsAt (m : Model) (pins : List (String × String)) (ps : List Permutation) (s : Selection) (i : Nat) : Prop :=
  ∃ p, ps[i]? = some p ∧ ∃ o ∈ p.oracles, Extends m pins s o

/-- The results of a list of permutations with their codes dispatch over the open properties of a model. Every combination of
values of these properties is recorded by one result and once only, and nothing else is; the result that records it has the
strong name of the code of the one permutation with an oracle that extends the combination. -/
structure IsDispatch (m : Model) (pins : List (String × String)) (ps : List Permutation) (codes : List String)
    (results : List CompiledResult) : Prop where
  once : (results.flatMap (·.selections)).Nodup
  complete : ∀ s, s ∈ results.flatMap (·.selections) ↔ IsCombination (m.openBindings pins) s
  owned : ∀ r ∈ results, ∀ s ∈ r.selections, ∃ (i : Nat) (code : String), codes[i]? = some code ∧
    r.strongName = strongName code.toUTF8 ∧ ∀ j, ExtendsAt m pins ps s j ↔ j = i

/-- An oracle belongs to one permutation of a model only. -/
theorem index_eq_of_mem_oracles {m : Model} (h : m.WellFormed) {i j : Nat} {p q : Permutation} (hp : m.permutations[i]? = some p)
    (hq : m.permutations[j]? = some q) {o : Oracle} (ho : o ∈ p.oracles) (ho' : o ∈ q.oracles) : i = j := by
  have hrows : ((rows m.bindings).map (oracleOf m.bindings)).Nodup :=
    (rows_nodup fun b hb => (h.valid b hb).distinct).map fun row row' he => congrArg Oracle.values he
  have hnodup := (flatMap_oracles_perm m).nodup_iff.2 hrows
  rw [List.nodup_flatMap, List.pairwise_iff_getElem] at hnodup
  obtain ⟨hi, rfl⟩ := List.getElem?_eq_some_iff.1 hp
  obtain ⟨hj, rfl⟩ := List.getElem?_eq_some_iff.1 hq
  rcases Nat.lt_trichotomy i j with hij | hij | hij
  · exact absurd ho' (hnodup.2 i j hi hj hij ho)
  · exact hij
  · exact absurd ho (hnodup.2 j i hj hi hij ho')

section Linked

variable {m m' : Model} {pins more : List (String × String)} {name : String} {codes : List String} {c : LinkContext}
  {set : ArtifactSet} (h : Linked m pins more name codes c m' set)

include h

/-- The selections that results record are those of the permutations. -/
theorem Linked.mem_selections_iff (s : Selection) :
    s ∈ set.compilations.flatMap (·.selections) ↔ s ∈ m'.permutations.flatMap c.selections := by
  rw [h.merges.mem_selections_iff, flatMap_selections_compiledAll _ h.counted]

/-- No selection is recorded twice. -/
theorem Linked.nodup_selections : (set.compilations.flatMap (·.selections)).Nodup := by
  refine h.merges.nodup_selections ?_
  rw [flatMap_selections_compiledAll _ h.counted]
  exact h.narrowed.nodup_selections

/-- A selection that a result records leads to the code of the one permutation with an oracle that extends it. -/
theorem Linked.exists_owner {r : CompiledResult} (hr : r ∈ set.compilations) {s : Selection} (hs : s ∈ r.selections) :
    ∃ (i : Nat) (code : String), codes[i]? = some code ∧ r.strongName = strongName code.toUTF8 ∧
      ∀ j, ExtendsAt m (pins ++ more) m'.permutations s j ↔ j = i := by
  obtain ⟨x, hx, hname, hsx⟩ := (h.merges.recorded r hr s).1 hs
  obtain ⟨i, p, code, hp, hcode, rfl⟩ := exists_of_mem_compiledAll hx
  rw [c.selections_eq] at hsx
  obtain ⟨o, ho, rfl⟩ := List.mem_map.1 hsx
  obtain ⟨ho, hreach⟩ := List.mem_filter.1 ho
  obtain ⟨row, hisRow, rfl⟩ := exists_row_of_mem_oracles (List.mem_of_getElem? hp) ho
  have hext := h.narrowed.extends_selection hisRow hreach
  refine ⟨i, code, hcode, hname.symm, fun j => ⟨?_, ?_⟩⟩
  · rintro ⟨q, hq, o', ho', hext'⟩
    obtain ⟨row', hisRow', rfl⟩ := exists_row_of_mem_oracles (List.mem_of_getElem? hq) ho'
    rw [h.narrowed.eq_of_extends hisRow' hisRow hext' hext] at ho'
    exact index_eq_of_mem_oracles (h.narrowed.reachable.of_pinAll h.narrowed.narrowed).wellFormed hq hp ho' ho
  · rintro rfl
    exact ⟨p, hp, _, ho, hext⟩

end Linked

/-- Where the pins of a link agree with those of the record, its results dispatch over the properties that neither decides. -/
theorem link_isDispatch {mod : Module} {pins : List (String × String)} {record : Record} {files : List Path}
    {codes : List String} {options : LinkOptions} {machine : Machine}
    (h : PrecompiledLink mod pins record files codes options machine.disk)
    (hagree : ∀ p ∈ options.pins, ∀ q ∈ pins, p.1 = q.1 → p.2 = q.2) :
    ∃ s machine', perform (link mod record files options) machine = (.ok s, machine') ∧
      IsDispatch mod.properties (pins ++ options.pins) record.permutations codes s.compilations := by
  obtain ⟨s, machine', c, m, hlink, hperms, hlinked⟩ := h.perform_link
  refine ⟨s, machine', hlink, hlinked.nodup_selections, fun t => ?_, ?_⟩
  · rw [hlinked.mem_selections_iff]
    exact hlinked.narrowed.mem_selections_iff h.legal hagree t
  · rw [hperms]
    exact fun r hr t ht => hlinked.exists_owner hr ht

/-- A module with the properties of `browsers`. -/
def greeter : Module :=
  .plain "hello" browsers

/-- A record of `greeter` with one property pinned; two permutations are left. -/
def greeterRecord : Record where
  moduleName := "hello"
  style := .pretty
  body := "greet"
  permutations := [
    ⟨0, [⟨["agent", "theme", "locale"], ["moz", "light", "en"]⟩, ⟨["agent", "theme", "locale"], ["moz", "dark", "en"]⟩]⟩,
    ⟨1, [⟨["agent", "theme", "locale"], ["moz", "light", "fr"]⟩, ⟨["agent", "theme", "locale"], ["moz", "dark", "fr"]⟩]⟩]
  pins := Dict.ofList [("agent", "moz")]
  generated := .ofList [.emitted (.ofText "generator" "logo.svg" "<svg/>")]

/-- A machine with a result for each permutation of `greeterRecord`. -/
def greeterMachine : Machine where
  disk := ⟨.directory [("0.js", .file "bonjour".toUTF8), ("1.js", .file "hello".toUTF8)], []⟩
  notes := []

theorem greeter_precompiledLink :
    PrecompiledLink greeter [("agent", "moz")] greeterRecord [⟨"0.js"⟩, ⟨"1.js"⟩] ["bonjour", "hello"]
      ⟨[("debug", "false"), ("agent", "moz")], .builtin⟩ greeterMachine.disk where
  reachable := browsers_reachable
  linkers := rfl
  registered := rfl
  narrowed := ⟨_, rfl, by decide⟩
  recorded := rfl
  named := rfl
  generated := by decide
  legal := by
    intro p hp
    rcases List.mem_cons.1 hp with rfl | hp
    · exact Or.inr ⟨_, List.mem_cons_self .., rfl, rfl⟩
    · rw [List.mem_singleton.1 hp]
      exact Or.inl ⟨_, List.mem_cons_self .., rfl, by decide⟩
  counted := rfl
  readable := .cons ⟨_, rfl, rfl⟩ (.cons ⟨_, rfl, rfl⟩ .nil)

/-- Of three properties one is pinned, so the results dispatch over two. -/
theorem greeter_isDispatch :
    PrecompiledLink greeter [("agent", "moz")] greeterRecord [⟨"0.js"⟩, ⟨"1.js"⟩] ["bonjour", "hello"]
        ⟨[("debug", "false"), ("agent", "moz")], .builtin⟩ greeterMachine.disk ∧
      (browsers.openBindings [("agent", "moz"), ("debug", "false"), ("agent", "moz")]).map (·.name) = ["theme", "locale"] ∧
      ∃ s machine', perform (link greeter greeterRecord [⟨"0.js"⟩, ⟨"1.js"⟩]
          ⟨[("debug", "false"), ("agent", "moz")], .builtin⟩) greeterMachine = (.ok s, machine') ∧
        IsDispatch greeter.properties [("agent", "moz"), ("debug", "false"), ("agent", "moz")] greeterRecord.permutations
          ["bonjour", "hello"] s.compilations :=
  ⟨greeter_precompiledLink, by decide, link_isDispatch greeter_precompiledLink (by decide)⟩

end DeferredBinding
