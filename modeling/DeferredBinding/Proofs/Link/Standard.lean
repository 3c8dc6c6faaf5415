import DeferredBinding.Proofs.Link.PinTime

/-!
# The standard linker

The rows that results ask for enter the dispatch table one after the other, and a row whose selection is there already has to
lead to the same strong name. What is seen so far is tabulated by the table (`Tabulates.addAnswer`), so a table comes out if and
only if no two results share a selection (`table_cases`). The files and the script then go into the set that they are made from.
Their names differ from each other, so each is found in the end, everything else is as it was, and a second run has nothing left
to do (`run_contract`).
-/

namespace DeferredBinding.Dispatch

/-! ## The table -/

/-- The error about two results that are both selected by one selection. -/
def clash (first second : CompiledResult) (s : Selection) : LinkError :=
  .stageFailed linkerName
    ("results " ++ first.strongName ++ " and " ++ second.strongName ++ " are both selected by \x7b" ++ describe s ++ "\x7d")

/-- A table stands for the rows that were seen: it has some of them, one for each selection, and it answers every selection with
the strong name that was asked for. -/
structure Tabulates (table seen : List Answer) : Prop where
  subset : ∀ a ∈ table, a ∈ seen
  distinct : (table.map (·.selection)).Nodup
  answers : ∀ a ∈ seen, ∃ b ∈ table, b.selection = a.selection ∧ b.result.strongName = a.result.strongName

/-- The result that a table gives for a selection is that of a row. -/
theorem exists_of_answer?_eq_some {table : List Answer} {s : Selection} {r : CompiledResult} (h : answer? table s = some r) :
    ∃ a ∈ table, a.selection = s ∧ a.result = r := by
  obtain ⟨a, ha, hr⟩ := Option.map_eq_some_iff.1 h
  have hs := List.find?_some ha
  exact ⟨a, List.mem_of_find?_eq_some ha, beq_iff_eq.1 hs, hr⟩

/-- A selection without an answer is in no row of the table. -/
theorem notMem_of_answer?_eq_none {table : List Answer} {s : Selection} (h : answer? table s = none) :
    s ∉ table.map (·.selection) := by
  rw [answer?, Option.map_eq_none_iff, List.find?_eq_none] at h
  intro hm
  obtain ⟨a, ha, rfl⟩ := List.mem_map.1 hm
  exact h a ha (beq_iff_eq.2 rfl)

namespace Tabulates

variable {table seen : List Answer} (h : Tabulates table seen)

include h

/-- Rows that were seen with one selection lead to one strong name. -/
theorem strongName_eq {a b : Answer} (ha : a ∈ seen) (hb : b ∈ seen) (hs : a.selection = b.selection) :
    a.result.strongName = b.result.strongName := by
  obtain ⟨a', ha', hsa, hna⟩ := h.answers a ha
  obtain ⟨b', hb', hsb, hnb⟩ := h.answers b hb
  have he : a' = b' := List.inj_on_of_nodup_map h.distinct ha' hb' (by rw [hsa, hsb, hs])
  rw [← hna, ← hnb, he]

/-- A further row enters the table, is answered by it already, or is at odds with a row that was seen. -/
theorem addAnswer (a : Answer) :
    (∃ table', Dispatch.addAnswer table a = .ok table' ∧ Tabulates table' (seen ++ [a])) ∨
      ∃ b ∈ seen, b.selection = a.selection ∧ b.result.strongName ≠ a.result.strongName ∧
        Dispatch.addAnswer table a = .error (clash b.result a.result a.selection) := by
  cases hans : answer? table a.selection with
  | none =>
    refine Or.inl ⟨table ++ [a], by rw [Dispatch.addAnswer, hans], ?_, ?_, ?_⟩
    · intro b hb
      rw [List.mem_append] at hb ⊢
      exact hb.imp_left (h.subset b)
    · rw [List.map_append, List.map_singleton]
      exact List.concat_eq_append ▸ h.distinct.concat (notMem_of_answer?_eq_none hans)
    · intro b hb
      rcases List.mem_append.1 hb with hb | hb
      · obtain ⟨b', hb', hsame⟩ := h.answers b hb
        exact ⟨b', List.mem_append_left _ hb', hsame⟩
      · obtain rfl := List.mem_singleton.1 hb
        exact ⟨b, List.mem_append_right _ hb, rfl, rfl⟩
  | some other =>
    obtain ⟨b, hb, hs, rfl⟩ := exists_of_answer?_eq_some hans
    by_cases hname : b.result.strongName = a.result.strongName
    · refine Or.inl ⟨table, by simp only [Dispatch.addAnswer, hans, if_pos hname], ?_, h.distinct, ?_⟩
      · exact fun c hc => List.mem_append_left _ (h.subset c hc)
      · intro c hc
        rcases List.mem_append.1 hc with hc | hc
        · exact h.answers c hc
        · obtain rfl := List.mem_singleton.1 hc
          exact ⟨b, hb, hs, hname⟩
    · refine Or.inr ⟨b, h.subset b hb, hs, hname, ?_⟩
      simp only [Dispatch.addAnswer, hans, if_neg hname, clash]

/-- Further rows enter the table in order, up to one that is at odds with a row before it. -/
theorem foldlM_addAnswer (rows : List Answer) :
    (∃ table', rows.foldlM Dispatch.addAnswer table = .ok table' ∧ Tabulates table' (seen ++ rows)) ∨
      ∃ a ∈ seen ++ rows, ∃ b ∈ seen ++ rows, a.selection = b.selection ∧ a.result.strongName ≠ b.result.strongName ∧
        rows.foldlM Dispatch.addAnswer table = .error (clash a.result b.result b.selection) := by
  induction rows generalizing table seen with
  | nil =>
    rw [List.append_nil]
    exact Or.inl ⟨table, rfl, h⟩
  | cons a rows ih =>
    rw [List.append_cons, List.foldlM_cons]
    rcases h.addAnswer a with ⟨table', hstep, h'⟩ | ⟨b, hb, hs, hname, hstep⟩
    · rw [hstep]
      exact ih h'
    · have ha : a ∈ seen ++ [a] ++ rows := by simp
      have hb' : b ∈ seen ++ [a] ++ rows := by simp [hb]
      refine Or.inr ⟨b, hb', a, ha, hs, hname, ?_⟩
      rw [hstep]
      rfl

end Tabulates

/-- A row is one that a list of results asks for. -/
theorem mem_flatMap_answersOf {results : List CompiledResult} {a : Answer} :
    a ∈ results.flatMap answersOf ↔ a.result ∈ results ∧ a.selection ∈ a.result.selections := by
  simp only [List.mem_flatMap, answersOf, List.mem_map]
  constructor
  · rintro ⟨r, hr, s, hs, rfl⟩
    exact ⟨hr, hs⟩
  · rintro ⟨hr, hs⟩
    exact ⟨a.result, hr, a.selection, hs, rfl⟩

/-- Two results of a set both record a selection. -/
structure Contested (s : ArtifactSet) (first second : CompiledResult) (selection : Selection) : Prop where
  left : first ∈ s.compilations ∧ selection ∈ first.selections
  right : second ∈ s.compilations ∧ selection ∈ second.selections
  differ : first ≠ second

/-- The results of a set have a table where no selection is contested; otherwise two of them clash. -/
theorem table_cases (s : ArtifactSet) :
    (∃ rows, table (selected s) = .ok rows ∧ Tabulates rows (s.compilations.flatMap answersOf) ∧
        ∀ r r' t, ¬Contested s r r' t) ∨
      ∃ r r' t, Contested s r r' t ∧ table (selected s) = .error (clash r r' t) := by
  have hrows : (selected s).flatMap answersOf = s.compilations.flatMap answersOf :=
    flatMap_selected _ (fun r hr => by rw [answersOf, hr]; rfl) s
  have hempty : Tabulates [] [] := ⟨by simp, List.nodup_nil, by simp⟩
  rw [table, hrows]
  rcases hempty.foldlM_addAnswer (s.compilations.flatMap answersOf) with ⟨rows, hok, htab⟩ | ⟨a, ha, b, hb, hs, hne, herr⟩
  · refine Or.inl ⟨rows, hok, htab, fun r r' t hc => hc.differ ?_⟩
    have hname := htab.strongName_eq (a := ⟨t, r⟩) (b := ⟨t, r'⟩) (mem_flatMap_answersOf.2 hc.left)
      (mem_flatMap_answersOf.2 hc.right) rfl
    exact List.inj_on_of_nodup_map s.nodup_strongNames hc.left.1 hc.right.1 hname
  · refine Or.inr ⟨a.result, b.result, b.selection, ⟨?_, ?_, ?_⟩, herr⟩
    · exact hs ▸ mem_flatMap_answersOf.1 ha
    · exact mem_flatMap_answersOf.1 hb
    · exact fun he => hne (congrArg CompiledResult.strongName he)

/-! ## The files -/

/-- The identity of the file of a result. -/
def cacheId (r : CompiledResult) : ArtifactId :=
  ⟨.emitted, cacheFile r.strongName⟩

/-- The identity of the script of a module. -/
def scriptId (moduleName : String) : ArtifactId :=
  ⟨.emitted, scriptFile moduleName⟩

theorem identities_cacheArtifact (results : List CompiledResult) :
    (results.map cacheArtifact).map Artifact.identity = results.map cacheId := by
  rw [List.map_map]
  rfl

/-- Results of a set with one cache file are one result. -/
theorem eq_of_cacheId_eq {s : ArtifactSet} {r r' : CompiledResult} (hr : r ∈ s.compilations) (hr' : r' ∈ s.compilations)
    (h : cacheId r = cacheId r') : r = r' :=
  List.inj_on_of_nodup_map s.nodup_strongNames hr hr' (cacheFile_injective (congrArg ArtifactId.key h))

/-- The results that the script is about are those that some selection leads to. -/
theorem mem_selected {s : ArtifactSet} {r : CompiledResult} : r ∈ selected s ↔ r ∈ s.compilations ∧ r.selections ≠ [] := by
  simp [selected]

/-- The cache files of a set have different names. -/
theorem nodup_cacheIds (s : ArtifactSet) : ((selected s).map cacheId).Nodup := by
  have hnames : ((selected s).map (·.strongName)).Nodup := s.nodup_strongNames.sublist (List.filter_sublist.map _)
  refine List.pairwise_map.2 ((List.pairwise_map.1 hnames).imp fun {r r'} hne he => hne ?_)
  exact cacheFile_injective (congrArg ArtifactId.key he)

/-- The script is no cache file. -/
theorem scriptId_ne_cacheId (moduleName : String) (r : CompiledResult) : scriptId moduleName ≠ cacheId r :=
  fun h => scriptFile_ne_cacheFile moduleName r.strongName (congrArg ArtifactId.key h)

theorem scriptId_notMem_cacheIds (moduleName : String) (results : List CompiledResult) :
    scriptId moduleName ∉ results.map cacheId := by
  intro h
  obtain ⟨r, -, hr⟩ := List.mem_map.1 h
  exact scriptId_ne_cacheId moduleName r hr.symm

section

variable (c : LinkContext) (s : ArtifactSet) (rows : List Answer)

theorem identity_scriptArtifact : (scriptArtifact c rows).identity = scriptId c.moduleName :=
  rfl

/-- Under another identity than those of the files and the script, a set holds what it held before. -/
theorem get?_withFiles_of_notMem {i : ArtifactId} (hcache : i ∉ (selected s).map cacheId) (hscript : i ≠ scriptId c.moduleName) :
    (withFiles c s rows).get? i = s.get? i := by
  rw [withFiles, ArtifactSet.get?_add, identity_scriptArtifact, if_neg hscript]
  refine ArtifactSet.get?_addAll_of_notMem ?_
  rw [identities_cacheArtifact]
  exact hcache

/-- The cache file of a result that is led to is in the set. -/
theorem get?_withFiles_cacheId {r : CompiledResult} (hr : r ∈ selected s) :
    (withFiles c s rows).get? (cacheId r) = some (cacheArtifact r) := by
  rw [withFiles, ArtifactSet.get?_add, identity_scriptArtifact, if_neg (scriptId_ne_cacheId c.moduleName r).symm]
  refine ArtifactSet.get?_addAll_of_mem (a := cacheArtifact r) ?_ (List.mem_map_of_mem hr)
  rw [identities_cacheArtifact]
  exact nodup_cacheIds s

/-- The script is in the set. -/
theorem get?_withFiles_scriptId : (withFiles c s rows).get? (scriptId c.moduleName) = some (scriptArtifact c rows) := by
  rw [withFiles, ArtifactSet.get?_add, identity_scriptArtifact, if_pos rfl]

/-- The files are new or stand where files of their names stood; the new ones come last, in the order of the results, and the
script after them. -/
theorem identities_withFiles :
    (withFiles c s rows).identities =
      s.identities ++ ((selected s).map cacheId ++ [scriptId c.moduleName]).filter (· ∉ s.identities) := by
  have hfiles : (s.addAll ((selected s).map cacheArtifact)).identities =
      s.identities ++ ((selected s).map cacheId).filter (· ∉ s.identities) := by
    rw [s.identities_addAll (by rw [identities_cacheArtifact]; exact nodup_cacheIds s), identities_cacheArtifact]
  have hscript : [scriptId c.moduleName].filter (· ∉ (s.addAll ((selected s).map cacheArtifact)).identities) =
      [scriptId c.moduleName].filter (· ∉ s.identities) := by
    refine List.filter_congr fun i hi => ?_
    obtain rfl := List.mem_singleton.1 hi
    simp [hfiles, scriptId_notMem_cacheIds]
  rw [withFiles, ArtifactSet.identities_add, identity_scriptArtifact, hscript, hfiles, List.filter_append, List.append_assoc]

theorem selected_withFiles : selected (withFiles c s rows) = selected s := by
  rw [selected, selected, compilations_withFiles]

/-- A set that has its files and its script already is left as it is. -/
theorem withFiles_withFiles : withFiles c (withFiles c s rows) rows = withFiles c s rows := by
  have hfiles : (withFiles c s rows).addAll ((selected s).map cacheArtifact) = withFiles c s rows := by
    refine ArtifactSet.addAll_eq_self fun a ha => ?_
    obtain ⟨r, hr, rfl⟩ := List.mem_map.1 ha
    exact get?_withFiles_cacheId c s rows hr
  rw [withFiles, selected_withFiles, hfiles]
  exact ArtifactSet.add_eq_self (get?_withFiles_scriptId c s rows)

end

/-! ## The contract -/

/-- A table without contested selections is written out. -/
theorem run_of_table_ok (c : LinkContext) {s : ArtifactSet} {rows : List Answer} (h : table (selected s) = .ok rows) :
    run c s = .ok (withFiles c s rows) := by
  rw [run, h]
  rfl

/-- A contested selection is an error. -/
theorem run_of_table_error (c : LinkContext) {s : ArtifactSet} {e : LinkError} (h : table (selected s) = .error e) :
    run c s = .error e := by
  rw [run, h]
  rfl

/-- What the standard linker makes of a set. -/
structure Dispatched (c : LinkContext) (s t : ArtifactSet) : Prop where
  /-- Each result that some selection leads to has its code as a public file of its name. -/
  cached : ∀ r ∈ s.compilations, r.selections ≠ [] →
    t.get? (cacheId r) = some (.emitted ⟨cacheFile r.strongName, r.code.toUTF8, .publicly, linkerName⟩)
  /-- The script of the module is a public file. It is made from the table. -/
  scripted : ∃ rows, table (selected s) = .ok rows ∧ t.get? (scriptId c.moduleName) =
    some (.emitted ⟨scriptFile c.moduleName, (script c rows).toUTF8, .publicly, linkerName⟩)
  kept : ∀ i, (∀ r ∈ s.compilations, r.selections ≠ [] → i ≠ cacheId r) → i ≠ scriptId c.moduleName → t.get? i = s.get? i
  compilations : t.compilations = s.compilations
  /-- A result that nothing leads to gets no file. -/
  unselected : ∀ r ∈ s.compilations, r.selections = [] → t.get? (cacheId r) = s.get? (cacheId r)
  /-- Nothing moves; what is new comes last, in the order of the results, and the script after them. -/
  order : t.identities =
    s.identities ++ ((selected s).map cacheId ++ [scriptId c.moduleName]).filter (· ∉ s.identities)
  again : run c t = .ok t

/-- A set of results with a table, with its files and the script, is dispatched. -/
theorem dispatched_withFiles (c : LinkContext) {s : ArtifactSet} {rows : List Answer} (h : table (selected s) = .ok rows) :
    Dispatched c s (withFiles c s rows) where
  cached r hr hsel := get?_withFiles_cacheId c s rows (mem_selected.2 ⟨hr, hsel⟩)
  scripted := ⟨rows, h, get?_withFiles_scriptId c s rows⟩
  kept i hcache hscript := by
    refine get?_withFiles_of_notMem c s rows (fun hi => ?_) hscript
    obtain ⟨r, hr, rfl⟩ := List.mem_map.1 hi
    exact hcache r (mem_selected.1 hr).1 (mem_selected.1 hr).2 rfl
  compilations := compilations_withFiles c s rows
  unselected r hr hsel := by
    refine get?_withFiles_of_notMem c s rows (fun hi => ?_) (scriptId_ne_cacheId c.moduleName r).symm
    obtain ⟨r', hr', he⟩ := List.mem_map.1 hi
    obtain rfl := eq_of_cacheId_eq (mem_selected.1 hr').1 hr he
    exact (mem_selected.1 hr').2 hsel
  order := identities_withFiles c s rows
  again := by
    rw [run_of_table_ok c (by rw [selected_withFiles, h]), withFiles_withFiles]

/-- The standard linker fails if and only if two results of a set record one selection, and then it names two such results.
Otherwise it adds the files of the results and the script, and nothing else changes. -/
theorem run_contract (c : LinkContext) (s : ArtifactSet) :
    ((∃ e, run c s = .error e) ↔ ∃ r r' t, Contested s r r' t) ∧
      (∀ e, run c s = .error e → ∃ r r' t, Contested s r r' t ∧ e = clash r r' t) ∧
      ∀ t, run c s = .ok t → Dispatched c s t := by
  rcases table_cases s with ⟨rows, htable, -, hnone⟩ | ⟨r, r', t, hcontested, htable⟩
  · have hrun := run_of_table_ok c htable
    refine ⟨⟨?_, ?_⟩, ?_, ?_⟩
    · rintro ⟨e, he⟩
      exact nomatch hrun.symm.trans he
    · rintro ⟨r, r', t, hc⟩
      exact absurd hc (hnone r r' t)
    · intro e he
      exact nomatch hrun.symm.trans he
    · intro t ht
      obtain rfl := Except.ok.inj (hrun.symm.trans ht)
      exact dispatched_withFiles c htable
  · have hrun := run_of_table_error c htable
    refine ⟨⟨fun _ => ⟨r, r', t, hcontested⟩, fun _ => ⟨_, hrun⟩⟩, ?_, ?_⟩
    · intro e he
      exact ⟨r, r', t, hcontested, (Except.error.inj (hrun.symm.trans he)).symm⟩
    · intro u hu
      exact nomatch hrun.symm.trans hu

end DeferredBinding.Dispatch
