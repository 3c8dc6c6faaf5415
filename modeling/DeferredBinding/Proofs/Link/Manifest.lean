import DeferredBinding.Proofs.Link.Standard
import DeferredBinding.Proofs.Record.Codec
import DeferredBinding.Link.Manifest

/-!
# The files of the manifest linker

Both files are about the results of a set in their order. The JSON file is read back with the strong name, the ids and the
selections of each (`readPermutations?_permutations`), so it lists the rows of the dispatch table
(`permutations_agree_with_table`). The plain list has no escapes: a name with a space, or a text with a line feed, can pass for
something else, and a result that nothing leads to looks like one that the empty selection leads to (`mappings_ambiguous`). Where
lines and words can be told apart, that is all that is lost (`mappings_eq_iff`).
-/

namespace DeferredBinding

open Text (concat)

namespace Manifest

/-! ## Both files -/

/-- The identity of the plain list. -/
def mappingsId : ArtifactId :=
  ⟨.emitted, mappingsFile⟩

/-- The identity of the JSON file. -/
def permutationsId : ArtifactId :=
  ⟨.emitted, permutationsFile⟩

/-- The plain list of a list of results as an artifact. -/
def mappingsArtifact (results : List CompiledResult) : Artifact :=
  .emitted (.privateText linkerName mappingsFile (mappings results))

/-- The JSON file of a list of results as an artifact. -/
def permutationsArtifact (results : List CompiledResult) : Artifact :=
  .emitted (.privateText linkerName permutationsFile (permutations results))

/-- A set with the files on its results. -/
def withManifest (s : ArtifactSet) : ArtifactSet :=
  s.addAll [mappingsArtifact s.compilations, permutationsArtifact s.compilations]

/-- The manifest linker never fails. -/
theorem run_eq_withManifest (c : LinkContext) (s : ArtifactSet) : run c s = .ok (withManifest s) :=
  rfl

/-- The files leave the results as they are. -/
theorem compilations_withManifest (s : ArtifactSet) : (withManifest s).compilations = s.compilations := by
  refine ArtifactSet.compilations_addAll_of_emitted fun a ha => ?_
  simp only [List.mem_cons, List.not_mem_nil, or_false] at ha
  rcases ha with rfl | rfl
  · rfl
  · rfl

/-- Both files are in the set. -/
theorem get?_withManifest_of_mem (s : ArtifactSet) {a : Artifact}
    (ha : a ∈ [mappingsArtifact s.compilations, permutationsArtifact s.compilations]) :
    (withManifest s).get? a.identity = some a := by
  refine ArtifactSet.get?_addAll_of_mem ?_ ha
  change [mappingsId, permutationsId].Nodup
  decide

theorem get?_withManifest_mappings (s : ArtifactSet) :
    (withManifest s).get? mappingsId = some (mappingsArtifact s.compilations) :=
  get?_withManifest_of_mem s List.mem_cons_self

theorem get?_withManifest_permutations (s : ArtifactSet) :
    (withManifest s).get? permutationsId = some (permutationsArtifact s.compilations) :=
  get?_withManifest_of_mem s (List.mem_cons_of_mem _ List.mem_cons_self)

/-- A script is neither of the two files. -/
theorem get?_withManifest_scriptId (s : ArtifactSet) (moduleName : String) :
    (withManifest s).get? (Dispatch.scriptId moduleName) = s.get? (Dispatch.scriptId moduleName) := by
  refine ArtifactSet.get?_addAll_of_notMem fun hm => ?_
  have hid : Dispatch.scriptId moduleName ∈ [mappingsId, permutationsId] := hm
  have hfile : Dispatch.scriptFile moduleName ∈ [mappingsFile, permutationsFile] := by
    simpa [Dispatch.scriptId, mappingsId, permutationsId] using hid
  -- the last letters differ
  have hend : 's' ∈ [mappingsFile, permutationsFile].filterMap (·.toList.getLast?) := by
    refine List.mem_filterMap.2 ⟨_, hfile, ?_⟩
    simp [Dispatch.scriptFile]
  exact absurd hend (by decide)

/-- A set that has the files on its results already is left as it is. -/
theorem withManifest_withManifest (s : ArtifactSet) : withManifest (withManifest s) = withManifest s := by
  rw [withManifest, compilations_withManifest]
  exact ArtifactSet.addAll_eq_self fun a ha => get?_withManifest_of_mem s ha

/-! ## The JSON file -/

/-- What the JSON file says of a result. -/
structure Listing where
  strongName : String
  ids : List Nat
  selections : List Selection
  deriving DecidableEq

/-- What is said of a result. -/
def listing (r : CompiledResult) : Listing :=
  ⟨r.strongName, r.ids, r.selections⟩

/-- A natural number of any size, written as digits only. -/
def natural? : Json → Option Nat
  | .number n => n.natural?
  | _ => none

/-- What a value says of a result. -/
def readListing? (v : Json) : Option Listing := do
  match ← v.fieldsOf? ["strong_name", "permutations", "selections"] with
  | [some name, some ids, some selections] =>
    some {
      strongName := ← name.text?
      ids := ← ids.list? natural?
      selections := ← selections.list? Dict.ofJson? }
  | _ => none

/-- What the bytes of a JSON file say of results. -/
def readPermutations? (bytes : ByteArray) : Option (List Listing) := do
  (← Json.ofBytes? bytes).list? readListing?

/-- An entry of the JSON file is read back. -/
theorem readListing?_entry (r : CompiledResult) : readListing? (entry r) = some (listing r) := by
  have hids : (Json.array (r.ids.map .nat)).list? natural? = some r.ids := Json.list?_array fun _ _ => rfl
  have hselections : (Json.array (r.selections.map Dict.toJson)).list? Dict.ofJson? = some r.selections :=
    Json.list?_array fun d _ => d.ofJson?_toJson
  rw [readListing?, entry, Json.fieldsOf?_record (by rfl) (by decide)]
  simp [hids, hselections, listing]

/-- The results are read back from the JSON file in their order. -/
theorem readPermutations?_permutations (results : List CompiledResult) :
    readPermutations? (permutations results).toUTF8 = some (results.map listing) := by
  rw [readPermutations?, permutations, Json.ofBytes?_prettyText]
  exact Json.mapM_map_eq_some fun r _ => readListing?_entry r

end Manifest

/-- A result comes from a code by recording ids and selections. -/
inductive CompiledResult.Built : CompiledResult → Prop
  | ofCode (code : String) : Built (.ofCode code)
  | addId {r : CompiledResult} (h : Built r) (id : Nat) : Built (r.addId id)
  | addSelection {r : CompiledResult} (h : Built r) (s : Selection) : Built (r.addSelection s)

/-- Such a result records no selection twice. -/
theorem CompiledResult.Built.nodup_selections {r : CompiledResult} (h : r.Built) : r.selections.Nodup := by
  induction h with
  | ofCode code => exact List.nodup_nil
  | addId _ id ih =>
    rw [CompiledResult.addId_eq]
    exact ih
  | @addSelection r _ s ih =>
    have hadded : r.addSelection s = { r with selections := (r.selections ++ [s]).eraseDups } :=
      CompiledResult.addSelections_eq (eraseDups_of_nodup ih).symm [s]
    rw [hadded]
    exact nodup_eraseDups _

namespace Dispatch

/-- Where no selection is contested and no result records one twice, no selection is recorded twice at all. -/
theorem nodup_selections_of_not_contested {s : ArtifactSet} (hbuilt : ∀ r ∈ s.compilations, r.Built)
    (hnone : ∀ r r' t, ¬Contested s r r' t) : (s.compilations.flatMap (·.selections)).Nodup := by
  have hresults : s.compilations.Nodup := s.nodup_strongNames.of_map _
  refine List.nodup_flatMap.2 ⟨fun r hr => (hbuilt r hr).nodup_selections, ?_⟩
  refine hresults.pairwise_of_forall_ne fun r hr r' hr' hne => ?_
  intro t ht ht'
  exact hnone r r' t ⟨⟨hr, ht⟩, ⟨hr', ht'⟩, hne⟩

/-- The selections that a list of results records, each with the strong name that it leads to. -/
theorem map_answersOf (results : List CompiledResult) :
    (results.flatMap answersOf).map (fun a => (a.selection, a.result.strongName)) =
      results.flatMap fun r => r.selections.map fun t => (t, r.strongName) := by
  rw [List.map_flatMap]
  refine List.flatMap_congr fun r _ => ?_
  rw [answersOf, List.map_map]
  rfl

end Dispatch

namespace Manifest

/-- Where the standard linker succeeds on results that were built in the regular way, the JSON file that the manifest linker then
emits lists these results in their order, and the selections it lists, each with its strong name, are the rows of the table that
the script is made from. -/
theorem permutations_agree_with_table (c : LinkContext) {s t : ArtifactSet} (hbuilt : ∀ r ∈ s.compilations, r.Built)
    (ht : Dispatch.run c s = .ok t) :
    ∃ (u : ArtifactSet) (file : Emitted) (listings : List Listing) (rows : List Dispatch.Answer),
      run c t = .ok u ∧ u.get? permutationsId = some (.emitted file) ∧ file.isPublic = false ∧
        readPermutations? file.contents = some listings ∧ listings = s.compilations.map listing ∧
        Dispatch.table (Dispatch.selected s) = .ok rows ∧
        u.get? (Dispatch.scriptId c.moduleName) = some (Dispatch.scriptArtifact c rows) ∧
        (listings.flatMap fun l => l.selections.map fun sel => (sel, l.strongName)) =
          rows.map (fun a => (a.selection, a.result.strongName)) ∧
        run c u = .ok u := by
  rcases Dispatch.table_cases s with ⟨rows, htable, -, hnone⟩ | ⟨r, r', sel, -, htable⟩
  · have honce := Dispatch.nodup_selections_of_not_contested hbuilt hnone
    have hrows : rows = s.compilations.flatMap Dispatch.answersOf := by
      have hall := Dispatch.flatMap_selected Dispatch.answersOf (fun r hr => by rw [Dispatch.answersOf, hr]; rfl) s
      have hsel : ((Dispatch.selected s).flatMap (·.selections)).Nodup := by
        rw [Dispatch.flatMap_selected _ fun r hr => hr]
        exact honce
      rw [← hall]
      exact (Except.ok.inj ((Dispatch.table_eq_ok hsel).symm.trans htable)).symm
    obtain rfl := Except.ok.inj ((Dispatch.run_of_table_ok c htable).symm.trans ht)
    have hresults := Dispatch.compilations_withFiles c s rows
    refine ⟨_, _, _, rows, run_eq_withManifest c _, get?_withManifest_permutations _, rfl,
      readPermutations?_permutations _, ?_, htable, ?_, ?_, ?_⟩
    · rw [hresults]
    · rw [get?_withManifest_scriptId, Dispatch.get?_withFiles_scriptId]
    · rw [hresults, hrows, Dispatch.map_answersOf, List.flatMap_map]
      rfl
    · rw [run_eq_withManifest, withManifest_withManifest]
  · cases (Dispatch.run_of_table_error c htable).symm.trans ht

/-- Results of `kiosk`: one that two selections lead to, and one that nothing leads to. -/
def kioskResults : List CompiledResult :=
  [((((CompiledResult.ofCode "show").addId 0).addSelection (.ofList [("agent", "moz")])).addId 2).addSelection
      (.ofList [("agent", "opera"), ("locale", "\"fr\"\n")]),
    (CompiledResult.ofCode "hide").addId 1]

/-- The results of `kiosk` behind a file. -/
def kioskSet : ArtifactSet :=
  .ofList (.emitted (.ofText "kiosk" "index.html" "<html/>") :: kioskResults.map .compilation)

theorem compilations_kioskSet : kioskSet.compilations = kioskResults := by
  have hdistinct : ((.emitted (.ofText "kiosk" "index.html" "<html/>") :: kioskResults.map .compilation).map
      Artifact.identity).Nodup := by decide +kernel
  rw [ArtifactSet.compilations, kioskSet, ArtifactSet.entries_ofList_of_distinct hdistinct]
  rfl

/-- The JSON file for `kiosk` lists both results, and the rows of its table. -/
theorem kiosk_permutations_agree :
    (∀ r ∈ kioskSet.compilations, r.Built) ∧
      ∃ t, Dispatch.run (.start kiosk .detailed ["std", "manifest"]) kioskSet = .ok t ∧
        ∃ (u : ArtifactSet) (file : Emitted) (listings : List Listing) (rows : List Dispatch.Answer),
          run (.start kiosk .detailed ["std", "manifest"]) t = .ok u ∧ u.get? permutationsId = some (.emitted file) ∧
            readPermutations? file.contents = some listings ∧ listings = kioskResults.map listing ∧
            Dispatch.table (Dispatch.selected kioskSet) = .ok rows ∧
            (listings.flatMap fun l => l.selections.map fun sel => (sel, l.strongName)) =
              rows.map (fun a => (a.selection, a.result.strongName)) := by
  have hbuilt : ∀ r ∈ kioskSet.compilations, r.Built := by
    rw [compilations_kioskSet]
    intro r hr
    simp only [kioskResults, List.mem_cons, List.not_mem_nil, or_false] at hr
    rcases hr with rfl | rfl
    · exact ((((CompiledResult.Built.ofCode _).addId 0).addSelection _).addId 2).addSelection _
    · exact (CompiledResult.Built.ofCode _).addId 1
  have honce : (kioskSet.compilations.flatMap (·.selections)).Nodup := by
    rw [compilations_kioskSet]
    decide +kernel
  have hrun := Dispatch.run_eq_ok (.start kiosk .detailed ["std", "manifest"]) honce
  obtain ⟨u, file, listings, rows, hu, hfile, -, hread, hlistings, hrows, -, hpairs, -⟩ :=
    permutations_agree_with_table _ hbuilt hrun
  rw [compilations_kioskSet] at hlistings
  exact ⟨hbuilt, _, hrun, u, file, listings, rows, hu, hfile, hread, hlistings, hrows, hpairs⟩

/-! ## The plain list -/

/-- The selections that a result is listed with: its own, or the empty one. -/
def shownSelections (r : CompiledResult) : List Selection :=
  if r.selections.isEmpty then [.empty] else r.selections

/-- The groups of the plain list: each result with the selections that it is listed with. -/
def groups (results : List CompiledResult) : List (String × List Selection) :=
  results.map fun r => (r.strongName, shownSelections r)

/-- The rows of groups, each with the key of its group. -/
def rowsOf {κ β : Type} (l : List (κ × List β)) : List (κ × β) :=
  l.flatMap fun g => g.2.map fun b => (g.1, b)

/-- The line of a value. -/
def valueLine (e : String × String) : List Char :=
  e.1.toList ++ ' ' :: e.2.toList

/-- The lines of a row up to the empty one. -/
def rowLines (row : String × Selection) : List (List Char) :=
  (cacheFile row.1).toList :: row.2.entries.map valueLine

/-- Pieces one after another, each with an end mark. -/
def ended {α : Type} (a : α) (l : List (List α)) : List α :=
  l.flatMap (· ++ [a])

/-- A block is the lines of its row and an empty one. -/
theorem toList_block (row : String × Selection) : (block row.1 row.2.entries).toList = ended '\n' (rowLines row ++ [[]]) := by
  have hvalues : (concat (row.2.entries.map fun e => e.1 ++ " " ++ e.2 ++ "\n")).toList =
      ended '\n' (row.2.entries.map valueLine) := by
    rw [concat, String.toList_join, ended, List.flatMap_map, List.flatMap_map]
    exact List.flatMap_congr fun e _ => by simp [valueLine]
  simp only [block, String.toList_append, hvalues]
  simp [ended, rowLines]

/-- The plain list is made of lines, and of blocks that end with an empty one. -/
theorem toList_mappings (results : List CompiledResult) :
    (mappings results).toList = ended '\n' (ended [] ((rowsOf (groups results)).map rowLines)) := by
  have hblocks : ∀ r, (blocks r).toList =
      ((shownSelections r).map fun s => (r.strongName, s)).flatMap fun row => ended '\n' (rowLines row ++ [[]]) := by
    intro r
    have hone : ∀ l : List Selection, (concat (l.map fun s => block r.strongName s.entries)).toList =
        (l.map fun s => (r.strongName, s)).flatMap fun row => ended '\n' (rowLines row ++ [[]]) := by
      intro l
      rw [concat, String.toList_join, List.flatMap_map, List.flatMap_map]
      exact List.flatMap_congr fun s _ => toList_block (r.strongName, s)
    rw [blocks, shownSelections]
    split
    · rw [← hone]
      exact congrArg String.toList (String.empty_append (s := block r.strongName [])).symm
    · exact hone r.selections
  rw [mappings, concat, String.toList_join, List.flatMap_map, rowsOf, groups]
  simp only [hblocks, ended, List.flatMap_map, List.map_flatMap, List.flatMap_assoc]

/-! ## What it tells -/

/-- A list is split in one way at the first place where an element stands. -/
theorem eq_of_append_cons_eq {α : Type} {a : α} {x y z z' : List α} (hx : a ∉ x) (hy : a ∉ y)
    (he : x ++ a :: z = y ++ a :: z') : x = y ∧ z = z' := by
  rcases List.append_eq_append_iff.1 he with ⟨c, rfl, hc⟩ | ⟨c, rfl, hc⟩
  · cases c with
    | nil => exact ⟨(List.append_nil x).symm, (List.cons.inj hc).2⟩
    | cons b c => exact absurd (by simp [(List.cons.inj hc).1]) hy
  · cases c with
    | nil => exact ⟨List.append_nil y, (List.cons.inj hc).2.symm⟩
    | cons b c => exact absurd (by simp [(List.cons.inj hc).1]) hx

/-- Pieces without the end mark are told from their sequence. -/
theorem ended_inj {α : Type} {a : α} {l l' : List (List α)} (h : ∀ x ∈ l, a ∉ x) (h' : ∀ x ∈ l', a ∉ x)
    (he : ended a l = ended a l') : l = l' := by
  induction l generalizing l' with
  | nil =>
    cases l' with
    | nil => rfl
    | cons y l' => simp [ended] at he
  | cons x l ih =>
    cases l' with
    | nil => simp [ended] at he
    | cons y l' =>
      have hsplit : x ++ a :: ended a l = y ++ a :: ended a l' := by simpa [ended] using he
      obtain ⟨rfl, hrest⟩ := eq_of_append_cons_eq (h x List.mem_cons_self) (h' y List.mem_cons_self) hsplit
      rw [ih (fun z hz => h z (List.mem_cons_of_mem _ hz)) (fun z hz => h' z (List.mem_cons_of_mem _ hz)) hrest]

/-- The rows of a group come first, and the rest has none of its key. -/
theorem filter_rowsOf_cons {κ β : Type} [DecidableEq κ] {k : κ} {l : List (κ × List β)} (h : k ∉ l.map (·.1)) (bs : List β) :
    (rowsOf ((k, bs) :: l)).filter (·.1 = k) = bs.map (fun b => (k, b)) ∧
      (rowsOf ((k, bs) :: l)).filter (·.1 ≠ k) = rowsOf l := by
  have hrest : ∀ row ∈ rowsOf l, row.1 ≠ k := by
    intro row hrow hk
    obtain ⟨g, hg, hb⟩ := List.mem_flatMap.1 hrow
    obtain ⟨b, -, rfl⟩ := List.mem_map.1 hb
    exact h (List.mem_map.2 ⟨g, hg, hk⟩)
  rw [rowsOf, List.flatMap_cons, List.filter_append, List.filter_append, ← rowsOf]
  constructor
  · rw [List.filter_eq_self.2 (by simp), List.filter_eq_nil_iff.2 (by simpa using hrest), List.append_nil]
  · rw [List.filter_eq_nil_iff.2 (by simp), List.filter_eq_self.2 (by simpa using hrest), List.nil_append]

/-- Groups that are not empty and have different keys are told from their rows. -/
theorem rowsOf_inj {κ β : Type} [DecidableEq κ] {l l' : List (κ × List β)} (hd : (l.map (·.1)).Nodup)
    (hd' : (l'.map (·.1)).Nodup) (hn : ∀ g ∈ l, g.2 ≠ []) (hn' : ∀ g ∈ l', g.2 ≠ []) (he : rowsOf l = rowsOf l') : l = l' := by
  induction l generalizing l' with
  | nil =>
    cases l' with
    | nil => rfl
    | cons g l' => exact absurd he (by simp [rowsOf, hn' g])
  | cons g l ih =>
    cases l' with
    | nil => exact absurd he (by simp [rowsOf, hn g])
    | cons g' l' =>
      obtain ⟨k, bs⟩ := g
      obtain ⟨k', bs'⟩ := g'
      rw [List.map_cons, List.nodup_cons] at hd hd'
      -- the first rows tell the key, and the key tells the rows of the group from the others
      have hk : k = k' := by
        obtain ⟨b, cs, rfl⟩ := List.exists_cons_of_ne_nil (hn _ List.mem_cons_self)
        obtain ⟨b', cs', rfl⟩ := List.exists_cons_of_ne_nil (hn' _ List.mem_cons_self)
        have hfirst := congrArg (fun rows => rows.head?.map Prod.fst) he
        simpa [rowsOf] using hfirst
      subst hk
      obtain ⟨hown, hrest⟩ := filter_rowsOf_cons hd.1 bs
      obtain ⟨hown', hrest'⟩ := filter_rowsOf_cons hd'.1 bs'
      rw [he, hown'] at hown
      rw [he, hrest'] at hrest
      have hbs : bs' = bs := List.map_injective_iff.2 (fun _ _ h => (Prod.mk.inj h).2) hown
      rw [hbs, ih hd.2 hd'.2 (fun g hg => hn g (List.mem_cons_of_mem _ hg)) (fun g hg => hn' g (List.mem_cons_of_mem _ hg))
        hrest.symm]

/-- The texts of a result can be told apart in a line: no line feeds anywhere, and no spaces in names. -/
structure Plain (r : CompiledResult) : Prop where
  strongName : '\n' ∉ r.strongName.toList
  names : ∀ s ∈ r.selections, ∀ e ∈ s.entries, ' ' ∉ e.1.toList ∧ '\n' ∉ e.1.toList
  values : ∀ s ∈ r.selections, ∀ e ∈ s.entries, '\n' ∉ e.2.toList

/-- The texts of a row can be told apart in a line. -/
structure PlainRow (row : String × Selection) : Prop where
  strongName : '\n' ∉ row.1.toList
  names : ∀ e ∈ row.2.entries, ' ' ∉ e.1.toList ∧ '\n' ∉ e.1.toList
  values : ∀ e ∈ row.2.entries, '\n' ∉ e.2.toList

/-- The rows of plain results are plain. -/
theorem plainRow_of_mem {results : List CompiledResult} (h : ∀ r ∈ results, Plain r) {row : String × Selection}
    (hrow : row ∈ rowsOf (groups results)) : PlainRow row := by
  obtain ⟨g, hg, hrow⟩ := List.mem_flatMap.1 hrow
  obtain ⟨r, hr, rfl⟩ := List.mem_map.1 hg
  obtain ⟨s, hshown, rfl⟩ := List.mem_map.1 hrow
  have hs : s ∈ if r.selections.isEmpty then [.empty] else r.selections := hshown
  split at hs
  · obtain rfl := List.mem_singleton.1 hs
    exact ⟨(h r hr).strongName, by simp [Dict.empty], by simp [Dict.empty]⟩
  · exact ⟨(h r hr).strongName, (h r hr).names s hs, (h r hr).values s hs⟩

/-- No line of such a row holds a line feed or is empty. -/
theorem PlainRow.lines {row : String × Selection} (h : PlainRow row) : ∀ x ∈ rowLines row, '\n' ∉ x ∧ x ≠ [] := by
  intro x hx
  rcases List.mem_cons.1 hx with rfl | hx
  · exact ⟨by simp [cacheFile, h.strongName], by simp [cacheFile]⟩
  · obtain ⟨e, he, rfl⟩ := List.mem_map.1 hx
    exact ⟨by simp [valueLine, (h.names e he).2, h.values e he], by simp [valueLine]⟩

/-- Such rows are told from their lines. -/
theorem rowLines_inj {row row' : String × Selection} (h : PlainRow row) (h' : PlainRow row')
    (he : rowLines row = rowLines row') : row = row' := by
  obtain ⟨hfile, hvalues⟩ := List.cons.inj he
  refine Prod.ext (cacheFile_injective (String.toList_injective hfile)) (Dict.ext ?_)
  refine eq_of_map_eq (fun e he e' he' hline => ?_) hvalues
  obtain ⟨hname, hvalue⟩ := eq_of_append_cons_eq (h.names e he).1 (h'.names e' he').1 hline
  exact Prod.ext (String.toList_injective hname) (String.toList_injective hvalue)

/-- Every result has a row. -/
theorem shownSelections_ne_nil (r : CompiledResult) : shownSelections r ≠ [] := by
  rw [shownSelections]
  split
  · simp
  · rename_i h
    simpa using h

theorem map_fst_groups (results : List CompiledResult) : (groups results).map (·.1) = results.map (·.strongName) := by
  rw [groups, List.map_map]
  rfl

/-- The plain lists of two sets with texts that can be told apart in a line are the same if and only if the sets have the same
results with the same selections, as far as they are listed. -/
theorem mappings_eq_iff {s s' : ArtifactSet} (h : ∀ r ∈ s.compilations, Plain r) (h' : ∀ r ∈ s'.compilations, Plain r) :
    mappings s.compilations = mappings s'.compilations ↔ groups s.compilations = groups s'.compilations := by
  have hlines : ∀ {results : List CompiledResult}, (∀ r ∈ results, Plain r) →
      ∀ rows ∈ (rowsOf (groups results)).map rowLines, ∀ x ∈ rows, '\n' ∉ x ∧ x ≠ [] := by
    intro results hplain rows hrows
    obtain ⟨row, hrow, rfl⟩ := List.mem_map.1 hrows
    exact (plainRow_of_mem hplain hrow).lines
  have hended : ∀ {results : List CompiledResult}, (∀ r ∈ results, Plain r) →
      ∀ x ∈ ended [] ((rowsOf (groups results)).map rowLines), '\n' ∉ x := by
    intro results hplain x hx
    obtain ⟨rows, hrows, hx⟩ := List.mem_flatMap.1 hx
    rcases List.mem_append.1 hx with hx | hx
    · exact (hlines hplain rows hrows x hx).1
    · rw [List.mem_singleton.1 hx]
      exact List.not_mem_nil
  have hnonempty : ∀ results : List CompiledResult, ∀ g ∈ groups results, g.2 ≠ [] := by
    intro results g hg
    obtain ⟨r, -, rfl⟩ := List.mem_map.1 hg
    exact shownSelections_ne_nil r
  rw [← String.toList_inj, toList_mappings, toList_mappings]
  constructor
  · intro he
    have hblocks := ended_inj (hended h) (hended h') he
    have hrows := ended_inj (fun rows hrows hempty => (hlines h rows hrows [] hempty).2 rfl)
      (fun rows hrows hempty => (hlines h' rows hrows [] hempty).2 rfl) hblocks
    refine rowsOf_inj ?_ ?_ (hnonempty _) (hnonempty _) (eq_of_map_eq (fun row hrow row' hrow' => ?_) hrows)
    · rw [map_fst_groups]
      exact s.nodup_strongNames
    · rw [map_fst_groups]
      exact s'.nodup_strongNames
    · exact rowLines_inj (plainRow_of_mem h hrow) (plainRow_of_mem h' hrow')
  · intro he
    rw [he]

/-- What a set says of its results: their strong names, and the selections that lead to them. -/
def recorded (s : ArtifactSet) : List (String × List Selection) :=
  s.compilations.map fun r => (r.strongName, r.selections)

/-- Where names have no spaces and line feeds and values have no line feeds, the plain lists that the manifest linker emits for two
sets differ whenever the results or the selections that lead to them differ, a result that nothing leads to being listed as one
that the empty selection leads to. -/
theorem mappings_tell (c c' : LinkContext) {s s' : ArtifactSet} (h : ∀ r ∈ s.compilations, Plain r)
    (h' : ∀ r ∈ s'.compilations, Plain r) :
    ∃ (u u' : ArtifactSet) (file file' : Emitted), run c s = .ok u ∧ run c' s' = .ok u' ∧
      u.get? mappingsId = some (.emitted file) ∧ u'.get? mappingsId = some (.emitted file') ∧
      (file.contents = file'.contents ↔ groups s.compilations = groups s'.compilations) := by
  refine ⟨_, _, _, _, run_eq_withManifest c s, run_eq_withManifest c' s', get?_withManifest_mappings s,
    get?_withManifest_mappings s', ?_⟩
  rw [← mappings_eq_iff h h']
  exact String.toByteArray_inj

/-- A set of one result that a list of selections leads to. -/
def single (selections : List Selection) : ArtifactSet :=
  .ofList [.compilation ((CompiledResult.ofCode "show").addSelections selections)]

theorem compilations_single (selections : List Selection) :
    (single selections).compilations = [(CompiledResult.ofCode "show").addSelections selections] := by
  have hdistinct : ([(CompiledResult.ofCode "show").addSelections selections].map (·.strongName)).Nodup :=
    List.nodup_singleton _
  exact ArtifactSet.compilations_ofList hdistinct

/-- A selection with two values and two selections with one value each are told apart. -/
theorem single_mappings_tell :
    (∀ r ∈ (single [.ofList [("agent", "moz 5"), ("locale", "fr")]]).compilations, Plain r) ∧
      (∀ r ∈ (single [.ofList [("agent", "moz 5")], .ofList [("locale", "fr")]]).compilations, Plain r) ∧
      ∀ c, ∃ (u u' : ArtifactSet) (file file' : Emitted),
        run c (single [.ofList [("agent", "moz 5"), ("locale", "fr")]]) = .ok u ∧
          run c (single [.ofList [("agent", "moz 5")], .ofList [("locale", "fr")]]) = .ok u' ∧
          u.get? mappingsId = some (.emitted file) ∧ u'.get? mappingsId = some (.emitted file') ∧
          file.contents ≠ file'.contents := by
  have hboth : ∀ r ∈ (single [.ofList [("agent", "moz 5"), ("locale", "fr")]]).compilations, Plain r := by
    intro r hr
    rw [compilations_single, List.mem_singleton] at hr
    subst hr
    exact ⟨by decide +kernel, by decide +kernel, by decide +kernel⟩
  have heach : ∀ r ∈ (single [.ofList [("agent", "moz 5")], .ofList [("locale", "fr")]]).compilations, Plain r := by
    intro r hr
    rw [compilations_single, List.mem_singleton] at hr
    subst hr
    exact ⟨by decide +kernel, by decide +kernel, by decide +kernel⟩
  refine ⟨hboth, heach, fun c => ?_⟩
  obtain ⟨u, u', file, file', hu, hu', hfile, hfile', hiff⟩ := mappings_tell c c hboth heach
  exact ⟨u, u', file, file', hu, hu', hfile, hfile', fun he => absurd (hiff.1 he) (by decide +kernel)⟩

/-- Two lists of selections that differ, and that the plain list shows alike for a result that they lead to. -/
def Lookalike (selections selections' : List Selection) : Prop :=
  recorded (single selections) ≠ recorded (single selections') ∧
    ∀ c, ∃ u u', run c (single selections) = .ok u ∧ run c (single selections') = .ok u' ∧ u.get? mappingsId = u'.get? mappingsId

/-- What the plain list shows alike is shown alike by every run. -/
theorem lookalike_of_mappings_eq {selections selections' : List Selection}
    (hne : recorded (single selections) ≠ recorded (single selections'))
    (h : mappings (single selections).compilations = mappings (single selections').compilations) :
    Lookalike selections selections' := by
  refine ⟨hne, fun c => ⟨_, _, run_eq_withManifest c _, run_eq_withManifest c _, ?_⟩⟩
  rw [get?_withManifest_mappings, get?_withManifest_mappings, mappingsArtifact, h, mappingsArtifact]

/-- The plain list does not tell no selection from the empty one, where a name with a space ends, or a line feed in a value from
the end of a line. -/
theorem mappings_ambiguous :
    Lookalike [] [.empty] ∧
      Lookalike [.ofList [("user agent", "moz")]] [.ofList [("user", "agent moz")]] ∧
      Lookalike [.ofList [("agent", "moz\nlocale fr")]] [.ofList [("agent", "moz"), ("locale", "fr")]] :=
  ⟨lookalike_of_mappings_eq (by decide +kernel) (by decide +kernel),
    lookalike_of_mappings_eq (by decide +kernel) (by decide +kernel),
    lookalike_of_mappings_eq (by decide +kernel) (by decide +kernel)⟩

end Manifest

end DeferredBinding
