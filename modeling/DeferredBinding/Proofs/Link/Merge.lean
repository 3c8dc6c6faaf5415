import DeferredBinding.Proofs.Link.Context
import DeferredBinding.Proofs.Lists
import DeferredBinding.Proofs.Machine
import Mathlib.Data.List.Pairwise

/-!
# Results merged by strong name

A link compiles one permutation after the other and merges each code into the results so far. `gathered` is the list of results
that this leads to, one for each strong name where it first comes up: one merge takes it to that of one more permutation
(`mergeInto_gathered`), and a whole link builds it up from nothing (`mergeAll_gathered`, `perform_finishAll`). What the results
record of the permutations is read off it (`merges_mergeAll`).
-/

namespace DeferredBinding

/-! ## Ids and selections of a result -/

namespace CompiledResult

/-- An id is recorded in its place, and nothing else changes. -/
theorem addId_eq (r : CompiledResult) (id : Nat) :
    r.addId id = { r with ids := if id ∈ r.ids then r.ids else r.ids ++ [id] } := by
  simp only [addId, List.contains_iff_mem]
  split
  · rfl
  · rfl

/-- A selection that is there changes nothing, and a new one goes to the end. -/
theorem addSelection_eq (r : CompiledResult) (s : Selection) :
    r.addSelection s = { r with selections := if s ∈ r.selections then r.selections else r.selections ++ [s] } := by
  simp only [addSelection, List.contains_iff_mem]
  split
  · rfl
  · rfl

/-- Selections are recorded where they first come up, and nothing else changes. -/
theorem addSelections_eq {r : CompiledResult} {seen : List Selection} (h : r.selections = seen.eraseDups) (l : List Selection) :
    r.addSelections l = { r with selections := (seen ++ l).eraseDups } := by
  induction l generalizing r seen with
  | nil =>
    rw [List.append_nil, ← h]
    rfl
  | cons s l ih =>
    have hs : r.addSelection s = { r with selections := (seen ++ [s]).eraseDups } := by
      rw [addSelection_eq, h, eraseDups_concat]
      simp only [List.mem_eraseDups]
    have hnext : (r.addSelection s).selections = (seen ++ [s]).eraseDups := by rw [hs]
    have hrest := ih hnext
    rw [List.append_assoc] at hrest
    calc r.addSelections (s :: l) = (r.addSelection s).addSelections l := rfl
      _ = { r.addSelection s with selections := (seen ++ ([s] ++ l)).eraseDups } := hrest
      _ = { r with selections := (seen ++ s :: l).eraseDups } := by rw [hs]; rfl

end CompiledResult

/-! ## One merge -/

/-- A permutation that was compiled: its id, its code, and the selections that lead to it. -/
structure Compiled where
  id : Nat
  code : String
  selections : List Selection

namespace Compiled

/-- The strong name of the code. -/
def strongName (i : Compiled) : String :=
  DeferredBinding.strongName i.code.toUTF8

/-- A result that a permutation is merged into. -/
def update (i : Compiled) (r : CompiledResult) : CompiledResult :=
  (r.addId i.id).addSelections i.selections

/-- The results with a permutation merged in. -/
def mergeInto (i : Compiled) (results : List CompiledResult) : List CompiledResult :=
  mergeResult i.update (.ofCode i.code) results

/-- A strong name that is there: the result that has it is updated. -/
theorem mergeInto_of_mem (i : Compiled) {rs : List CompiledResult} (hd : (rs.map (·.strongName)).Nodup)
    (h : i.strongName ∈ rs.map (·.strongName)) :
    i.mergeInto rs = rs.map fun r => if r.strongName = i.strongName then i.update r else r := by
  induction rs with
  | nil => nomatch h
  | cons r rs ih =>
    rw [List.map_cons, List.nodup_cons] at hd
    rw [mergeInto, mergeResult, List.map_cons]
    change (if r.strongName = i.strongName then _ else _) = _
    split
    · rename_i hr
      have hrest : ∀ r' ∈ rs, r'.strongName ≠ i.strongName := by
        intro r' hr' he
        exact hd.1 (List.mem_map.2 ⟨r', hr', he.trans hr.symm⟩)
      have hid : (rs.map fun r => if r.strongName = i.strongName then i.update r else r) = rs.map fun r => r :=
        List.map_congr_left fun r' hr' => if_neg (hrest r' hr')
      rw [hid, List.map_id']
    · rename_i hr
      rcases List.mem_cons.1 h with h | h
      · exact absurd h.symm hr
      · exact congrArg (r :: ·) (ih hd.2 h)

/-- A new strong name: its result goes to the end. -/
theorem mergeInto_of_not_mem (i : Compiled) {rs : List CompiledResult} (h : i.strongName ∉ rs.map (·.strongName)) :
    i.mergeInto rs = rs ++ [i.update (.ofCode i.code)] := by
  induction rs with
  | nil => rfl
  | cons r rs ih =>
    rw [List.map_cons, List.mem_cons, not_or] at h
    have hne : r.strongName ≠ (CompiledResult.ofCode i.code).strongName := fun he => h.1 he.symm
    rw [mergeInto, mergeResult, if_neg hne, List.cons_append]
    exact congrArg (r :: ·) (ih h.2)

end Compiled

/-! ## The results of compiled permutations -/

/-- The permutations that were compiled to a strong name. -/
def compiledTo (items : List Compiled) (name : String) : List Compiled :=
  items.filter fun i => i.strongName = name

/-- The result of the permutations that were compiled to a strong name. -/
def resultOf (items : List Compiled) (name : String) : CompiledResult where
  strongName := name
  code := ((compiledTo items name).head?.map (·.code)).getD ""
  ids := ((compiledTo items name).map (·.id)).eraseDups
  selections := ((compiledTo items name).flatMap (·.selections)).eraseDups

/-- The results of a list of compiled permutations: one for each strong name, where it first comes up. -/
def gathered (items : List Compiled) : List CompiledResult :=
  ((items.map (·.strongName)).eraseDups).map (resultOf items)

theorem strongNames_gathered (items : List Compiled) :
    (gathered items).map (·.strongName) = (items.map (·.strongName)).eraseDups := by
  rw [gathered, List.map_map]
  exact List.map_id' _

/-- A permutation with another strong name is no matter. -/
theorem resultOf_concat_of_ne {items : List Compiled} {i : Compiled} {name : String} (h : i.strongName ≠ name) :
    resultOf (items ++ [i]) name = resultOf items name := by
  have hsame : compiledTo (items ++ [i]) name = compiledTo items name := by
    simp [compiledTo, h]
  unfold resultOf
  rw [hsame]

/-- A result is updated field by field. -/
theorem Compiled.update_eq (i : Compiled) {r : CompiledResult} (ids : List Nat) (seen : List Selection)
    (hids : r.ids = ids.eraseDups) (hseen : r.selections = seen.eraseDups) :
    i.update r = ⟨r.strongName, r.code, (ids ++ [i.id]).eraseDups, (seen ++ i.selections).eraseDups⟩ := by
  have hid : r.addId i.id = { r with ids := (ids ++ [i.id]).eraseDups } := by
    rw [CompiledResult.addId_eq, hids, eraseDups_concat]
    simp only [List.mem_eraseDups]
  have hkept : (r.addId i.id).selections = seen.eraseDups := by
    rw [hid]
    exact hseen
  rw [update, CompiledResult.addSelections_eq hkept, hid]

/-- The permutations that were compiled to the strong name of the last one. -/
theorem compiledTo_concat (items : List Compiled) (i : Compiled) :
    compiledTo (items ++ [i]) i.strongName = compiledTo items i.strongName ++ [i] := by
  simp [compiledTo]

/-- A permutation is merged into the result with its strong name. -/
theorem update_resultOf {items : List Compiled} {i : Compiled} (h : i.strongName ∈ items.map (·.strongName)) :
    i.update (resultOf items i.strongName) = resultOf (items ++ [i]) i.strongName := by
  obtain ⟨first, rest, hsame⟩ : ∃ first rest, compiledTo items i.strongName = first :: rest := by
    obtain ⟨j, hj, hname⟩ := List.mem_map.1 h
    refine List.exists_cons_of_ne_nil (List.ne_nil_of_mem (a := j) ?_)
    exact List.mem_filter.2 ⟨hj, by simpa using hname⟩
  rw [i.update_eq _ _ rfl rfl]
  simp [resultOf, compiledTo_concat, hsame]

/-- A permutation with a new strong name opens a result. -/
theorem update_ofCode {items : List Compiled} {i : Compiled} (h : i.strongName ∉ items.map (·.strongName)) :
    i.update (.ofCode i.code) = resultOf (items ++ [i]) i.strongName := by
  have hsame : compiledTo items i.strongName = [] := by
    refine List.filter_eq_nil_iff.2 fun j hj hname => h ?_
    exact List.mem_map.2 ⟨j, hj, by simpa using hname⟩
  have hname : (CompiledResult.ofCode i.code).strongName = i.strongName := rfl
  have hcode : (CompiledResult.ofCode i.code).code = i.code := rfl
  rw [i.update_eq [] [] rfl rfl]
  simp [resultOf, compiledTo_concat, hsame, hname, hcode]

/-- One more permutation is merged into the results. -/
theorem mergeInto_gathered (items : List Compiled) (i : Compiled) :
    i.mergeInto (gathered items) = gathered (items ++ [i]) := by
  have hnames := strongNames_gathered items
  have hmem : i.strongName ∈ (gathered items).map (·.strongName) ↔ i.strongName ∈ items.map (·.strongName) := by
    rw [hnames, List.mem_eraseDups]
  by_cases h : i.strongName ∈ items.map (·.strongName)
  · have hdistinct : ((gathered items).map (·.strongName)).Nodup := hnames ▸ nodup_eraseDups _
    rw [i.mergeInto_of_mem hdistinct (hmem.2 h), gathered, gathered, List.map_append, List.map_singleton,
      eraseDups_concat, if_pos h, List.map_map]
    refine List.map_congr_left fun name hname => ?_
    rw [Function.comp_apply]
    split
    · rename_i hi
      obtain rfl : name = i.strongName := hi
      exact update_resultOf h
    · rename_i hi
      exact (resultOf_concat_of_ne fun he => hi he.symm).symm
  · rw [i.mergeInto_of_not_mem (mt hmem.1 h), gathered, gathered, List.map_append, List.map_singleton,
      eraseDups_concat, if_neg h, List.map_append, List.map_singleton, update_ofCode h]
    congr 1
    refine List.map_congr_left fun name hname => (resultOf_concat_of_ne fun hi => h ?_).symm
    rw [hi]
    exact List.mem_eraseDups.1 hname

/-- The results of a list of permutations that are compiled in order. -/
def mergeAll (items : List Compiled) (results : List CompiledResult) : List CompiledResult :=
  items.foldl (fun rs i => i.mergeInto rs) results

/-- Permutations are merged one by one into the results so far. -/
theorem mergeAll_gathered (done items : List Compiled) : mergeAll items (gathered done) = gathered (done ++ items) := by
  induction items generalizing done with
  | nil =>
    rw [List.append_nil]
    rfl
  | cons i items ih =>
    have hrest := ih (done ++ [i])
    rw [← mergeInto_gathered, List.append_assoc] at hrest
    exact hrest

/-! ## What the results record -/

/-- The results of a list of compiled permutations: strong names are different, a result is led to by the selections of all
permutations with its strong name, each recorded once, and every permutation has a result. -/
structure Merges (items : List Compiled) (results : List CompiledResult) : Prop where
  distinct : (results.map (·.strongName)).Nodup
  recorded : ∀ r ∈ results, ∀ s, s ∈ r.selections ↔ ∃ i ∈ items, i.strongName = r.strongName ∧ s ∈ i.selections
  recorded_once : ∀ r ∈ results, r.selections.Nodup
  merged : ∀ i ∈ items, ∃ r ∈ results, r.strongName = i.strongName

/-- A result records the selections of the permutations with its strong name. -/
theorem mem_selections_resultOf (items : List Compiled) (name : String) (s : Selection) :
    s ∈ (resultOf items name).selections ↔ ∃ i ∈ items, i.strongName = name ∧ s ∈ i.selections := by
  simp [resultOf, compiledTo, List.mem_eraseDups, and_assoc]

/-- Gathered results are those of the permutations. -/
theorem merges_gathered (items : List Compiled) : Merges items (gathered items) := by
  refine ⟨?_, fun r hr s => ?_, fun r hr => ?_, fun i hi => ?_⟩
  · rw [strongNames_gathered]
    exact nodup_eraseDups _
  · obtain ⟨name, -, rfl⟩ := List.mem_map.1 hr
    exact mem_selections_resultOf items name s
  · obtain ⟨name, -, rfl⟩ := List.mem_map.1 hr
    exact nodup_eraseDups _
  · have hname : i.strongName ∈ (items.map (·.strongName)).eraseDups :=
      List.mem_eraseDups.2 (List.mem_map_of_mem hi)
    exact ⟨resultOf items i.strongName, List.mem_map_of_mem hname, rfl⟩

/-- The results of a link that starts with none. -/
theorem merges_mergeAll (items : List Compiled) : Merges items (mergeAll items []) := by
  have hgathered : mergeAll items [] = gathered items := mergeAll_gathered [] items
  rw [hgathered]
  exact merges_gathered items

/-- Where no selection is listed twice over all permutations, none is recorded twice over all results. -/
theorem Merges.nodup_selections {items : List Compiled} {results : List CompiledResult} (h : Merges items results)
    (hn : (items.flatMap (·.selections)).Nodup) : (results.flatMap (·.selections)).Nodup := by
  rw [List.nodup_flatMap] at hn ⊢
  refine ⟨h.recorded_once, ?_⟩
  have hpair : results.Pairwise fun r r' => r.strongName ≠ r'.strongName := List.pairwise_map.1 h.distinct
  refine List.Pairwise.imp_of_mem ?_ hpair
  intro r r' hr hr' hne s hs hs'
  obtain ⟨i, hi, hin, his⟩ := (h.recorded r hr s).1 hs
  obtain ⟨j, hj, hjn, hjs⟩ := (h.recorded r' hr' s).1 hs'
  have hij : i ≠ j := by
    rintro rfl
    exact hne (hin.symm.trans hjn)
  have : Std.Symm (Function.onFun List.Disjoint fun i : Compiled => i.selections) := ⟨fun _ _ hd _ ha hb => hd hb ha⟩
  exact hn.2.forall hi hj hij his hjs

/-- The selections recorded over all results are those of the permutations. -/
theorem Merges.mem_selections_iff {items : List Compiled} {results : List CompiledResult} (h : Merges items results)
    (s : Selection) : s ∈ results.flatMap (·.selections) ↔ s ∈ items.flatMap (·.selections) := by
  rw [List.mem_flatMap, List.mem_flatMap]
  constructor
  · rintro ⟨r, hr, hs⟩
    obtain ⟨i, hi, _, his⟩ := (h.recorded r hr s).1 hs
    exact ⟨i, hi, his⟩
  · rintro ⟨i, hi, his⟩
    obtain ⟨r, hr, he⟩ := h.merged i hi
    exact ⟨r, hr, (h.recorded r hr s).2 ⟨i, hi, he.symm, his⟩⟩

/-! ## The run of a link -/

/-- A file of a disk can be read and holds a text. -/
def Disk.Holds (d : Disk) (file : Path) (code : String) : Prop :=
  ∃ bytes, d.read file = .ok bytes ∧ Text.ofBytes? bytes = some code

/-- What is compiled of a list of permutations, given the selections that lead to each and their codes. -/
def compiledAll (selections : Permutation → List Selection) (ps : List Permutation) (codes : List String) : List Compiled :=
  List.zipWith (fun p code => ⟨p.id, code, selections p⟩) ps codes

/-- What was compiled is a permutation with its code and its selections. -/
theorem exists_of_mem_compiledAll {f : Permutation → List Selection} {ps : List Permutation} {codes : List String} {x : Compiled}
    (h : x ∈ compiledAll f ps codes) :
    ∃ (i : Nat) (p : Permutation) (code : String), ps[i]? = some p ∧ codes[i]? = some code ∧ x = ⟨p.id, code, f p⟩ := by
  obtain ⟨i, hi⟩ := List.mem_iff_getElem?.1 h
  rw [compiledAll, List.getElem?_zipWith] at hi
  split at hi
  · rename_i p code hp hcode
    exact ⟨i, p, code, hp, hcode, (Option.some.inj hi).symm⟩
  · nomatch hi

namespace Linking

/-- The code of a permutation is what its file holds. -/
theorem perform_readCode {s : Machine} {file : Path} {code : String} (h : s.disk.Holds file code) (id : Nat) :
    perform (readCode file id) s = (.ok code, s) := by
  obtain ⟨bytes, hread, htext⟩ := h
  have hrun : (Host.readText file : StateM Machine (Except Refusal String)).run s = (.ok code, s) := by
    rw [Host.readText, run_bind, run_read, hread]
    simp only [htext]
    rfl
  have hlift : perform (liftM (Host.readText file : StateM Machine (Except Refusal String))) s = (.ok (.ok code), s) := by
    rw [perform_lift, hrun]
  rw [readCode, perform_bind_of_ok hlift]
  rfl

/-- A permutation with selections and a file is compiled and merged; the disk stays as it is. -/
theorem perform_finish {l : Linking} {p : Permutation} {file : Path} {code : String} {selections : List Selection} {s : Machine}
    (hsel : selectionsFor l.context p = .ok selections) (hfile : s.disk.Holds file code) :
    ∃ s', perform (l.finish p file) s = (.ok (l.merge p.id code selections), s') ∧ s'.disk = s.disk := by
  have hcompile : ∃ r s', perform (l.compile file p.id selections) s = (.ok (r, l.merge p.id code selections), s') ∧
      s'.disk = s.disk := by
    rw [compile, perform_bind_of_ok (perform_readCode hfile p.id)]
    exact ⟨_, _, rfl, rfl⟩
  obtain ⟨r, s', hc, hs'⟩ := hcompile
  have hselected : perform (liftM (selectionsFor l.context p)) s = (.ok selections, s) := by rw [perform_except, hsel]
  rw [finish, perform_bind_of_ok hselected, perform_bind_of_ok hc]
  exact ⟨_, rfl, hs'⟩

/-- All permutations of a list are compiled and merged. -/
theorem perform_finishAll {l : Linking} {ps : List Permutation} {files : List Path} {codes : List String}
    {selections : Permutation → List Selection} {s : Machine}
    (hsel : ∀ p ∈ ps, selectionsFor l.context p = .ok (selections p)) (hfiles : List.Forall₂ s.disk.Holds files codes) :
    ∃ s', perform (l.finishAll (ps.zip files)) s =
        (.ok { l with results := mergeAll (compiledAll selections ps codes) l.results }, s') ∧ s'.disk = s.disk := by
  induction ps generalizing l files codes s with
  | nil => exact ⟨s, rfl, rfl⟩
  | cons p ps ih =>
    cases hfiles with
    | nil => exact ⟨s, rfl, rfl⟩
    | @cons file code files codes hfile hfiles =>
      obtain ⟨s₁, hp, hs₁⟩ := perform_finish (hsel p (List.mem_cons_self ..)) hfile
      rw [← hs₁] at hfiles
      obtain ⟨s₂, hrest, hs₂⟩ := ih (l := l.merge p.id code (selections p))
        (fun q hq => hsel q (List.mem_cons_of_mem _ hq)) hfiles
      rw [List.zip_cons_cons, finishAll, perform_bind_of_ok hp, hrest]
      exact ⟨s₂, rfl, hs₂.trans hs₁⟩

end Linking

end DeferredBinding
