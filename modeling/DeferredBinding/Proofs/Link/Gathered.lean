import DeferredBinding.Proofs.Artifact.Set
import DeferredBinding.Proofs.Link.Merge
import DeferredBinding.Proofs.Record.HandOff

/-!
# What a link hands to its chain

Whatever a record says, a link that gets as far as its chain hands it one result for each strong name, in the order in
which the names first come up, and then the generated files (`link_handsOver`). A result lists the permutations that were
compiled to its name and, without repetition, the open parts of those of their combinations that agree with what is decided.
-/

namespace DeferredBinding

/-! ## Permutations that are numbered by their places -/

/-- The strong name of a code. -/
def codeName (code : String) : String :=
  strongName code.toUTF8

section Numbered

variable {f : Permutation → List Selection} {ps : List Permutation} {codes : List String}
  (hlen : ps.length = codes.length) (hnum : ∀ (i : Nat) (p : Permutation), ps[i]? = some p → p.id = i)

include hlen

/-- The permutation at a place is compiled to the code at that place. -/
theorem getElem?_compiledAll {i : Nat} {code : String} (h : codes[i]? = some code) :
    ∃ p, ps[i]? = some p ∧ (compiledAll f ps codes)[i]? = some ⟨p.id, code, f p⟩ := by
  have hi : i < ps.length := by
    rw [hlen]
    exact (List.getElem?_eq_some_iff.1 h).1
  refine ⟨ps[i], List.getElem?_eq_getElem hi, ?_⟩
  rw [compiledAll, List.getElem?_zipWith, List.getElem?_eq_getElem hi, h]

theorem length_compiledAll : (compiledAll f ps codes).length = codes.length := by
  rw [compiledAll, List.length_zipWith, hlen, Nat.min_self]

/-- The strong names of compiled permutations are those of their codes. -/
theorem strongNames_compiledAll : (compiledAll f ps codes).map (·.strongName) = codes.map codeName := by
  refine List.ext_getElem (by simp [length_compiledAll hlen]) fun i hi hi' => ?_
  rw [List.length_map] at hi hi'
  obtain ⟨p, -, hp⟩ := getElem?_compiledAll (f := f) hlen (List.getElem?_eq_getElem hi')
  rw [List.getElem?_eq_getElem hi] at hp
  rw [List.getElem_map, List.getElem_map, Option.some.inj hp]
  rfl

/-- The results of compiled permutations are those of the strong names of the codes. -/
theorem mem_gathered {r : CompiledResult} :
    r ∈ gathered (compiledAll f ps codes) ↔ ∃ name ∈ codes.map codeName, r = resultOf (compiledAll f ps codes) name := by
  simp only [gathered, strongNames_compiledAll hlen, List.mem_map, List.mem_eraseDups]
  exact exists_congr fun name => and_congr_right fun _ => eq_comm

omit hlen in
/-- A result has the code of a permutation with its strong name. -/
theorem code_resultOf {name : String} (h : name ∈ (compiledAll f ps codes).map (·.strongName)) :
    (resultOf (compiledAll f ps codes) name).code ∈ codes ∧ codeName (resultOf (compiledAll f ps codes) name).code = name := by
  obtain ⟨x, hx, hname⟩ := List.mem_map.1 h
  have hmem : x ∈ compiledTo (compiledAll f ps codes) name := List.mem_filter.2 ⟨hx, decide_eq_true hname⟩
  obtain ⟨first, rest, hsame⟩ := List.exists_cons_of_ne_nil (List.ne_nil_of_mem hmem)
  have hfirst : first ∈ compiledTo (compiledAll f ps codes) name := hsame ▸ List.mem_cons_self
  obtain ⟨hin, hfirstName⟩ := List.mem_filter.1 hfirst
  obtain ⟨i, p, code, -, hcode, rfl⟩ := exists_of_mem_compiledAll hin
  have heq : (resultOf (compiledAll f ps codes) name).code = code := by
    simp [resultOf, hsame]
  rw [heq]
  exact ⟨List.mem_of_getElem? hcode, of_decide_eq_true hfirstName⟩

include hnum

/-- The ids of compiled permutations count their places. -/
theorem ids_compiledAll : (compiledAll f ps codes).map (·.id) = List.range codes.length := by
  refine List.ext_getElem (by simp [length_compiledAll hlen]) fun i hi hi' => ?_
  rw [List.length_map] at hi
  rw [List.length_range] at hi'
  obtain ⟨p, hp, hcompiled⟩ := getElem?_compiledAll (f := f) hlen (List.getElem?_eq_getElem hi')
  rw [List.getElem?_eq_getElem hi] at hcompiled
  rw [List.getElem_map, List.getElem_range, Option.some.inj hcompiled]
  exact hnum i p hp

/-- The places of the codes with a strong name, in order. -/
theorem ids_resultOf (name : String) :
    (resultOf (compiledAll f ps codes) name).ids.Pairwise (· < ·) ∧
      (resultOf (compiledAll f ps codes) name).ids = (compiledTo (compiledAll f ps codes) name).map (·.id) := by
  have hsorted : ((compiledTo (compiledAll f ps codes) name).map (·.id)).Pairwise (· < ·) := by
    refine List.Pairwise.sublist (List.filter_sublist.map _) ?_
    rw [ids_compiledAll hlen hnum]
    exact List.pairwise_lt_range
  have hids : (resultOf (compiledAll f ps codes) name).ids = (compiledTo (compiledAll f ps codes) name).map (·.id) :=
    eraseDups_of_nodup (hsorted.imp Nat.ne_of_lt)
  exact ⟨hids ▸ hsorted, hids⟩

/-- A place is listed exactly if its code has the strong name. -/
theorem mem_ids_resultOf (name : String) (i : Nat) :
    i ∈ (resultOf (compiledAll f ps codes) name).ids ↔ (codes[i]?).map codeName = some name := by
  rw [(ids_resultOf hlen hnum name).2, List.mem_map]
  constructor
  · rintro ⟨x, hx, rfl⟩
    obtain ⟨hx, hname⟩ := List.mem_filter.1 hx
    obtain ⟨i, p, code, hp, hcode, rfl⟩ := exists_of_mem_compiledAll hx
    rw [hnum i p hp, hcode, Option.map_some]
    exact congrArg some (of_decide_eq_true hname)
  · intro h
    obtain ⟨code, hcode, hname⟩ := Option.map_eq_some_iff.1 h
    obtain ⟨p, hp, hcompiled⟩ := getElem?_compiledAll (f := f) hlen hcode
    refine ⟨_, List.mem_filter.2 ⟨List.mem_of_getElem? hcompiled, ?_⟩, hnum i p hp⟩
    exact decide_eq_true hname

/-- The selections of a result are those of its permutations, in the order of their places. -/
theorem selections_resultOf (name : String) :
    (resultOf (compiledAll f ps codes) name).selections =
      ((resultOf (compiledAll f ps codes) name).ids.flatMap fun i => (ps[i]?).elim [] f).eraseDups := by
  rw [(ids_resultOf hlen hnum name).2, List.flatMap_map]
  refine congrArg List.eraseDups (List.flatMap_congr fun x hx => ?_)
  obtain ⟨i, p, code, hp, -, rfl⟩ := exists_of_mem_compiledAll (List.mem_filter.1 hx).1
  rw [hnum i p hp, hp]
  rfl

end Numbered

/-! ## Pins and open parts that are accepted -/

namespace LinkContext

/-- A pin that is accepted is legal. -/
theorem allows_of_pin {c c' : LinkContext} {name value : String} (h : c.pin name value = .ok c') :
    ∃ q, c.property? name = some q ∧ q.allows value = true := by
  unfold pin at h
  split at h
  · nomatch h
  · rename_i q hq
    split at h
    · rename_i hv
      exact ⟨q, hq, hv⟩
    · nomatch h

/-- Pins that are accepted are legal. -/
theorem allows_of_pinAll {c c' : LinkContext} {pins : List (String × String)} (h : c.pinAll pins = .ok c') :
    ∀ p ∈ pins, ∃ q, c.property? p.1 = some q ∧ q.allows p.2 = true := by
  induction pins generalizing c with
  | nil => simp
  | cons p pins ih =>
    unfold pinAll at h
    rw [List.foldlM_cons] at h
    cases hpin : c.pin p.1 p.2 with
    | error e =>
      rw [hpin] at h
      nomatch h
    | ok c₁ =>
      obtain ⟨q, hq, hv⟩ := allows_of_pin hpin
      rw [hpin] at h
      obtain rfl := Except.ok.inj ((pin_eq_ok hq hv).symm.trans hpin)
      refine List.forall_mem_cons.2 ⟨⟨q, hq, hv⟩, fun p' hp' => ?_⟩
      obtain ⟨q', hq', hv'⟩ := ih h p' hp'
      rw [property?, Dict.get?_insert] at hq'
      split at hq'
      · rename_i hname
        obtain rfl := Option.some.inj hq'
        exact ⟨q, hname ▸ hq, hv'⟩
      · exact ⟨q', hq', hv'⟩

/-- An open part that is accepted takes over the answers that are not decided, which are legal. -/
theorem openFrom_spec {c : LinkContext} {s s' : Selection} {pairs : List (String × String)}
    (h : c.openFrom s pairs = .ok s') :
    s' = (pairs.filter fun p => (c.static? p.1).isNone).foldl (fun d p => d.insert p.1 p.2) s ∧
      ∀ p ∈ pairs, c.static? p.1 = none → ∃ q, c.property? p.1 = some q ∧ q.allows p.2 = true := by
  induction pairs generalizing s with
  | nil =>
    obtain rfl := Except.ok.inj h
    exact ⟨rfl, by simp⟩
  | cons p pairs ih =>
    obtain ⟨name, value⟩ := p
    unfold openFrom at h
    cases hq : c.property? name with
    | none =>
      rw [hq] at h
      cases h
    | some q =>
      have hstatic : c.static? name = q.staticValue := by rw [static?, hq, Option.bind_some]
      rw [hq] at h
      cases hs : q.staticValue with
      | some fixed =>
        simp only [hs, Option.isSome_some, if_true] at h
        obtain ⟨hs', hlegal⟩ := ih h
        refine ⟨?_, List.forall_mem_cons.2 ⟨fun hnone => ?_, hlegal⟩⟩
        · rw [List.filter_cons_of_neg (by simp [hstatic, hs])]
          exact hs'
        · rw [hstatic, hs] at hnone
          cases hnone
      | none =>
        simp only [hs, Option.isSome_none, Bool.false_eq_true, if_false] at h
        split at h
        · rename_i hv
          obtain ⟨hs', hlegal⟩ := ih h
          refine ⟨?_, List.forall_mem_cons.2 ⟨fun _ => ⟨q, hq, hv⟩, hlegal⟩⟩
          rw [List.filter_cons_of_pos (by simp [hstatic, hs])]
          exact hs'
        · cases h

/-- An open part that is accepted is the selection of the combination, and what it says is legal. -/
theorem openPart_spec {c : LinkContext} {o : Oracle} {s : Selection} (h : c.openPart o = .ok s) :
    s = c.selection o ∧ ∀ name value, s.get? name = some value →
      c.static? name = none ∧ ∃ q, c.property? name = some q ∧ q.allows value = true := by
  obtain ⟨hs, hlegal⟩ := openFrom_spec h
  refine ⟨hs, fun name value hget => ?_⟩
  have hmem : (name, value) ∈ o.pairs.filter fun p => (c.static? p.1).isNone := by
    rw [hs] at hget
    have hlookup := (Dict.get?_ofList _ name).symm.trans hget
    exact List.mem_reverse.1 (mem_of_lookup_eq_some hlookup)
  obtain ⟨hpair, hnone⟩ := List.mem_filter.1 hmem
  have hstatic : c.static? name = none := Option.isNone_iff_eq_none.1 hnone
  exact ⟨hstatic, hlegal _ hpair hstatic⟩

/-- Selections that are accepted are those of the permutation, and what they say is legal. -/
theorem selectionsFor_spec {c : LinkContext} {p : Permutation} {l : List Selection}
    (h : Linking.selectionsFor c p = .ok l) :
    l = c.selections p ∧ ∀ s ∈ l, ∀ name value, s.get? name = some value →
      c.static? name = none ∧ ∃ q, c.property? name = some q ∧ q.allows value = true := by
  have hopen : ∀ o ∈ p.oracles.filter c.reaches, c.openPart o = pure (c.selection o) := by
    intro o ho
    obtain ⟨s, hs⟩ := exists_ok_of_mapM h o ho
    rw [hs, (openPart_spec hs).1]
    rfl
  obtain rfl : l = (p.oracles.filter c.reaches).map c.selection := Except.ok.inj (h.symm.trans (mapM_eq_pure hopen))
  refine ⟨(c.selections_eq p).symm, fun s hs => ?_⟩
  obtain ⟨o, ho, rfl⟩ := List.mem_map.1 hs
  exact (openPart_spec (hopen o ho)).2

end LinkContext

/-! ## The run up to the chain -/

namespace Linking

variable {m : Type → Type} [Monad m] [Host m]

/-- A link up to its chain. -/
def gather (mod : Module) (record : Record) (files : List Path) (options : LinkOptions) : ExceptT LinkError m Linking := do
  if record.permutations.length ≠ files.length then
    throw (.countMismatch record.permutations.length files.length)
  if record.moduleName ≠ mod.name then
    throw (.moduleMismatch mod.name record.moduleName)
  let l ← prepare mod record options
  (Host.log ⟨.info, linkOrigin, "Linking module " ++ mod.name⟩ : m Unit)
  let l ← l.finishAll (record.permutations.zip files)
  return l.addArtifacts record.generated

/-- A link runs the chain on what it has gathered. -/
def complete (l : Linking) : ExceptT LinkError m ArtifactSet := do
  let s ← runLinkers l.context l.linkers l.initial
  (Host.log ⟨.info, linkOrigin, "Link succeeded"⟩ : m Unit)
  return s

/-- A link gathers the results and then runs the chain. -/
theorem link_eq_gather [LawfulMonad m] (mod : Module) (record : Record) (files : List Path) (options : LinkOptions) :
    (link mod record files options : ExceptT LinkError m ArtifactSet) =
      gather mod record files options >>= complete := by
  unfold link gather complete
  by_cases hlen : record.permutations.length = files.length
  · by_cases hname : record.moduleName = mod.name
    · simp [hlen, hname, invoke]
    · simp [hlen, hname]
  · simp [hlen]

/-- A link whose permutations are all finished has accepted the selections of each. -/
theorem exists_selectionsFor {l l' : Linking} {ps : List Permutation} {files : List Path} {codes : List String}
    {s s' : Machine} (hlen : ps.length = files.length) (hfiles : List.Forall₂ s.disk.Holds files codes)
    (h : perform (l.finishAll (ps.zip files)) s = (.ok l', s')) :
    ∀ p ∈ ps, ∃ selections, selectionsFor l.context p = .ok selections := by
  induction ps generalizing l files codes s with
  | nil => simp
  | cons p ps ih =>
    cases hfiles with
    | nil => nomatch hlen
    | @cons file code files codes hfile hfiles =>
      rw [List.zip_cons_cons, finishAll] at h
      cases hsel : selectionsFor l.context p with
      | error e =>
        have hfail : perform (l.finish p file) s = (.error e, s) := by
          rw [finish, perform_bind, perform_except, hsel]
        rw [perform_bind, hfail] at h
        cases (Prod.mk.inj h).1
      | ok selections =>
        obtain ⟨s₁, hfinish, hdisk⟩ := perform_finish hsel hfile
        rw [perform_bind_of_ok hfinish] at h
        rw [← hdisk] at hfiles
        have hrest := ih (l := l.merge p.id code selections) (Nat.succ.inj hlen) hfiles h
        exact List.forall_mem_cons.2 ⟨⟨selections, hsel⟩, hrest⟩

/-- A link that is prepared has accepted the recorded and the further pins, and has merged nothing. -/
theorem pinAll_of_prepare {mod : Module} {record : Record} {options : LinkOptions} {l : Linking}
    (h : prepare mod record options = .ok l) :
    ∃ linkers, (start mod record.style linkers).context.pinAll (record.pins.entries ++ options.pins) = .ok l.context ∧
      l.results = [] ∧ l.artifacts = .empty := by
  unfold prepare at h
  cases hchain : options.registry.buildChain mod.linkers with
  | error e =>
    rw [hchain] at h
    nomatch h
  | ok linkers =>
    rw [hchain] at h
    simp only [Bind.bind, Except.bind] at h
    split at h
    · nomatch h
    · rename_i c₁ h₁
      split at h
      · nomatch h
      · rename_i c₂ h₂
        obtain rfl := Except.ok.inj h
        refine ⟨linkers, ?_, rfl, rfl⟩
        unfold LinkContext.pinAll at h₁ h₂ ⊢
        rw [List.foldlM_append]
        exact (congrArg (· >>= _) h₁).trans h₂

/-- A link that is prepared has decided its properties by the recorded and the further pins. -/
theorem prepare_spec {mod : Module} {record : Record} {options : LinkOptions} {l : Linking}
    (h : prepare mod record options = .ok l) :
    (∀ name, l.context.property? name = (mod.properties.selectionProperties.get? name).map
        (LinkContext.decidedBy (record.pins.entries ++ options.pins) name)) ∧ l.results = [] ∧ l.artifacts = .empty := by
  obtain ⟨linkers, hpins, hresults, hartifacts⟩ := pinAll_of_prepare h
  refine ⟨fun name => ?_, hresults, hartifacts⟩
  obtain ⟨ps, hps, hget⟩ := LinkContext.pinAll_eq_ok (LinkContext.allows_of_pinAll hpins)
  rw [Except.ok.inj (hpins.symm.trans hps)]
  exact hget name

end Linking

/-- A value that a link sees as legal is legal. -/
theorem Model.legal_of_allows {m : Model} {name value : String} {q : SelectionProperty}
    (hq : m.selectionProperties.get? name = some q) (hv : q.allows value = true) : m.Legal name value := by
  rw [m.get?_selectionProperties, Option.or_eq_some_iff] at hq
  rcases hq with hq | ⟨-, hq⟩
  · obtain ⟨c, hc, hcq⟩ := List.mem_map.1 (List.mem_reverse.1 (mem_of_lookup_eq_some hq))
    obtain ⟨rfl, rfl⟩ := Prod.mk.inj hcq
    exact Or.inr ⟨c, hc, rfl, (List.mem_singleton.1 (List.contains_iff_mem.1 hv)).symm⟩
  · obtain ⟨b, hb, hbq⟩ := List.mem_map.1 (List.mem_reverse.1 (mem_of_lookup_eq_some hq))
    obtain ⟨rfl, rfl⟩ := Prod.mk.inj hbq
    exact Or.inl ⟨b, hb, rfl, List.contains_iff_mem.1 hv⟩

/-- What a link hands to its chain: the results of the permutations and then the generated artifacts. There is a result
for each strong name of the codes, in the order of their first places; it lists the places of its codes in order, so that
every place is listed by one result, and the selections of the permutations there, each where it first comes up: those of the
combinations that agree with what is decided. They name properties that nothing decides, with legal values; what is decided is so
by the last pin of a name. -/
structure HandsOver (mod : Module) (pins : List (String × String)) (record : Record) (codes : List String) (c : LinkContext)
    (results : List CompiledResult) (s : ArtifactSet) : Prop where
  entries : s.entries = results.map .compilation ++ record.generated.entries
  named : results.map (·.strongName) = (codes.map codeName).eraseDups
  coded : ∀ r ∈ results, r.code ∈ codes ∧ codeName r.code = r.strongName
  ordered : ∀ r ∈ results, r.ids.Pairwise (· < ·)
  numbered : ∀ r ∈ results, ∀ i, i ∈ r.ids ↔ (codes[i]?).map codeName = some r.strongName
  listed : ∀ i < codes.length, ∃ r ∈ results, i ∈ r.ids ∧ ∀ r' ∈ results, i ∈ r'.ids → r' = r
  selected : ∀ r ∈ results,
    r.selections = (r.ids.flatMap fun i => (record.permutations[i]?).elim [] c.selections).eraseDups
  decided : ∀ name,
    c.property? name = (mod.properties.selectionProperties.get? name).map (LinkContext.decidedBy pins name)
  legal : ∀ r ∈ results, ∀ sel ∈ r.selections, ∀ name value, sel.get? name = some value →
    c.static? name = none ∧ mod.properties.Legal name value

/-- The chain starts from the results and then the files, if they are all that there is. -/
theorem Linking.entries_initial {l : Linking} (hd : (l.results.map (·.strongName)).Nodup)
    (hf : ∀ a ∈ l.artifacts.entries, a.kind = .emitted) :
    l.initial.entries = l.results.map .compilation ++ l.artifacts.entries := by
  have hresults := ArtifactSet.entries_ofList_compilations hd
  unfold initial
  rw [ArtifactSet.entries_addAll_of_new l.artifacts.distinct, hresults]
  intro a ha hmem
  rw [ArtifactSet.identities, hresults, List.map_map] at hmem
  obtain ⟨r, -, hr⟩ := List.mem_map.1 hmem
  have hkind : ArtifactKind.compilation = a.kind := congrArg ArtifactId.kind hr
  rw [hf a ha] at hkind
  cases hkind

/-- What is gathered of a numbered record with accepted selections is handed over. -/
theorem handsOver_gathered {mod : Module} {pins : List (String × String)} {record : Record} {codes : List String} {l : Linking}
    (hnum : ∀ (i : Nat) (p : Permutation), record.permutations[i]? = some p → p.id = i)
    (hlen : record.permutations.length = codes.length)
    (hdecided : ∀ name, l.context.property? name =
      (mod.properties.selectionProperties.get? name).map (LinkContext.decidedBy pins name))
    (hsel : ∀ p ∈ record.permutations, ∃ selections, Linking.selectionsFor l.context p = .ok selections)
    (hresults : l.results = gathered (compiledAll l.context.selections record.permutations codes))
    (hartifacts : l.artifacts.entries = record.generated.entries)
    (hgen : ∀ a ∈ record.generated.entries, a.kind = .emitted) :
    HandsOver mod pins record codes l.context l.results l.initial := by
  have hnames : l.results.map (·.strongName) = (codes.map codeName).eraseDups := by
    rw [hresults, strongNames_gathered, strongNames_compiledAll hlen]
  have hmem : ∀ {r}, r ∈ l.results → ∃ name ∈ codes.map codeName,
      r = resultOf (compiledAll l.context.selections record.permutations codes) name := by
    intro r hr
    rw [hresults] at hr
    exact (mem_gathered hlen).1 hr
  refine ⟨?_, hnames, ?_, ?_, ?_, ?_, ?_, hdecided, ?_⟩
  · rw [Linking.entries_initial (hnames ▸ nodup_eraseDups _) (hartifacts ▸ hgen), hartifacts]
  · intro r hr
    obtain ⟨name, hname, rfl⟩ := hmem hr
    rw [← strongNames_compiledAll (f := l.context.selections) hlen] at hname
    exact code_resultOf hname
  · intro r hr
    obtain ⟨name, -, rfl⟩ := hmem hr
    exact (ids_resultOf hlen hnum name).1
  · intro r hr
    obtain ⟨name, -, rfl⟩ := hmem hr
    exact mem_ids_resultOf hlen hnum name
  · intro i hi
    have hcode : (codes[i]?).map codeName = some (codeName codes[i]) := by
      rw [List.getElem?_eq_getElem hi, Option.map_some]
    refine ⟨_, hresults ▸ (mem_gathered hlen).2 ⟨_, List.mem_map_of_mem (List.getElem_mem hi), rfl⟩,
      (mem_ids_resultOf hlen hnum _ i).2 hcode, fun r hr hir => ?_⟩
    obtain ⟨name, -, rfl⟩ := hmem hr
    rw [mem_ids_resultOf hlen hnum, hcode] at hir
    rw [Option.some.inj hir]
  · intro r hr
    obtain ⟨name, -, rfl⟩ := hmem hr
    exact selections_resultOf hlen hnum name
  · intro r hr sel hs name value hget
    obtain ⟨n, -, rfl⟩ := hmem hr
    rw [selections_resultOf hlen hnum, List.mem_eraseDups, List.mem_flatMap] at hs
    obtain ⟨i, -, hs⟩ := hs
    cases hp : record.permutations[i]? with
    | none =>
      rw [hp] at hs
      nomatch hs
    | some p =>
      rw [hp] at hs
      obtain ⟨selections, hok⟩ := hsel p (List.mem_of_getElem? hp)
      obtain ⟨rfl, hlegal⟩ := LinkContext.selectionsFor_spec hok
      obtain ⟨hstatic, q, hq, hv⟩ := hlegal sel hs name value hget
      rw [hdecided] at hq
      obtain ⟨q₀, hq₀, rfl⟩ := Option.map_eq_some_iff.1 hq
      exact ⟨hstatic, Model.legal_of_allows hq₀ hv⟩

/-- A link that gets as far as its chain has gathered the results of all permutations. -/
theorem Linking.gather_spec {mod : Module} {record : Record} {files : List Path} {codes : List String} {options : LinkOptions}
    {machine machine' : Machine} {l : Linking} (hfiles : List.Forall₂ machine.disk.Holds files codes)
    (h : perform (gather mod record files options) machine = (.ok l, machine')) :
    record.permutations.length = codes.length ∧
      (∀ name, l.context.property? name = (mod.properties.selectionProperties.get? name).map
        (LinkContext.decidedBy (record.pins.entries ++ options.pins) name)) ∧
      (∀ p ∈ record.permutations, ∃ selections, selectionsFor l.context p = .ok selections) ∧
      l.results = gathered (compiledAll l.context.selections record.permutations codes) ∧
      l.artifacts.entries = record.generated.entries := by
  by_cases hlen : record.permutations.length ≠ files.length
  · rw [gather, if_pos hlen] at h
    cases (Prod.mk.inj h).1
  by_cases hname : record.moduleName ≠ mod.name
  · rw [gather, if_neg hlen, if_pos hname] at h
    cases (Prod.mk.inj h).1
  rw [gather, if_neg hlen, if_neg hname] at h
  rw [not_not] at hlen
  have hcodes : record.permutations.length = codes.length := hlen.trans hfiles.length_eq
  cases hprep : prepare mod record options with
  | error e =>
    rw [perform_bind, perform_except, hprep] at h
    cases (Prod.mk.inj h).1
  | ok l₀ =>
    obtain ⟨hdecided, hresults, hartifacts⟩ := prepare_spec hprep
    obtain ⟨machine₁, hlog, hdisk⟩ : ∃ machine₁ : Machine,
        perform (liftM (Host.log ⟨.info, linkOrigin, "Linking module " ++ mod.name⟩ : StateM Machine Unit)) machine =
          (.ok (), machine₁) ∧ machine₁.disk = machine.disk := ⟨_, rfl, rfl⟩
    rw [perform_bind_of_ok (by rw [perform_except, hprep]), perform_bind_of_ok hlog] at h
    rw [← hdisk] at hfiles
    obtain ⟨l₁, machine₂, hfinish, hreturn⟩ := perform_bind_ok h
    have hsel := exists_selectionsFor hlen hfiles hfinish
    have hsel' : ∀ p ∈ record.permutations, selectionsFor l₀.context p = .ok (l₀.context.selections p) := by
      intro p hp
      obtain ⟨selections, hok⟩ := hsel p hp
      rw [hok, (LinkContext.selectionsFor_spec hok).1]
    obtain ⟨machine₃, hrun, -⟩ := perform_finishAll hsel' hfiles
    obtain rfl := Except.ok.inj (Prod.mk.inj (hfinish.symm.trans hrun)).1
    obtain rfl := Except.ok.inj (Prod.mk.inj hreturn).1
    refine ⟨hcodes, hdecided, hsel, ?_, ?_⟩
    · show mergeAll _ l₀.results = _
      rw [hresults]
      exact mergeAll_gathered [] _
    · show (l₀.artifacts.addAll record.generated.entries).entries = _
      rw [hartifacts]
      exact congrArg ArtifactSet.entries record.generated.ofList_entries

/-- A link of any accepted record with readable results that gets as far as its chain runs it on what it has gathered. -/
theorem link_handsOver {mod : Module} {record : Record} {files : List Path} {codes : List String} {options : LinkOptions}
    {path : Path} {before before' machine machine' : Machine} {l : Linking}
    (hread : perform (Record.read path) before = (.ok record, before'))
    (hgenerated : ∀ a ∈ record.generated.entries, a.kind = .emitted)
    (hfiles : List.Forall₂ machine.disk.Holds files codes)
    (hgather : perform (Linking.gather mod record files options) machine = (.ok l, machine')) :
    perform (link mod record files options) machine = perform l.complete machine' ∧
      HandsOver mod (record.pins.entries ++ options.pins) record codes l.context l.results l.initial := by
  obtain ⟨hlen, hdecided, hsel, hresults, hartifacts⟩ := Linking.gather_spec hfiles hgather
  refine ⟨?_, handsOver_gathered ?_ hlen hdecided hsel hresults hartifacts hgenerated⟩
  · rw [Linking.link_eq_gather, perform_bind_of_ok hgather]
  · intro i p hp
    exact ((Record.sound_of_perform_read hread).each i p hp).numbered

/-- A module with the properties of `browsers`. -/
def kiosk : Module :=
  .plain "kiosk" browsers

/-- A record of `kiosk` with an oracle that says two things of one property. -/
def kioskRecord : Record where
  moduleName := "kiosk"
  style := .pretty
  body := "show"
  permutations := [
    ⟨0, [⟨["agent", "locale"], ["moz", "en"]⟩, ⟨["agent", "theme", "locale"], ["ie6", "dark", "en"]⟩]⟩,
    ⟨1, [⟨["locale", "agent", "locale"], ["en", "moz", "fr"]⟩]⟩,
    ⟨2, [⟨["agent", "locale"], ["moz", "fr"]⟩, ⟨["agent", "locale"], ["moz", "en"]⟩]⟩]
  pins := .empty
  generated := .ofList [.emitted (.ofText "generator" "logo.svg" "<svg/>")]

/-- A machine with the record and a result for each permutation; the first and the last have the same code. -/
def kioskMachine : Machine where
  disk := ⟨.directory [("0.js", .file "show".toUTF8), ("1.js", .file "hide".toUTF8), ("2.js", .file "show".toUTF8),
    ("kiosk.json", .file kioskRecord.toBytes)], []⟩
  notes := []

/-- The record on the disk of `kioskMachine` is accepted. -/
theorem read_kioskRecord : perform (Record.read ⟨"kiosk.json"⟩) kioskMachine = (.ok kioskRecord, kioskMachine) := by
  have hids : kioskRecord.IdsBounded := ⟨by decide, by
    intro a ha
    obtain rfl := List.mem_singleton.1 ha
    trivial⟩
  have hdisk : kioskMachine.disk.read ⟨"kiosk.json"⟩ = .ok kioskRecord.toBytes := rfl
  rw [Record.perform_read hdisk, Record.ofBytes_toBytes hids]
  rfl

/-- Three permutations share two codes, and one reachable combination is given twice. A combination for another agent has a theme
in its open part, which no result records. -/
theorem kiosk_handsOver :
    ∃ l machine, perform (Linking.gather kiosk kioskRecord [⟨"0.js"⟩, ⟨"1.js"⟩, ⟨"2.js"⟩] ⟨[("agent", "moz")], .builtin⟩)
          kioskMachine = (.ok l, machine) ∧
        perform (link kiosk kioskRecord [⟨"0.js"⟩, ⟨"1.js"⟩, ⟨"2.js"⟩] ⟨[("agent", "moz")], .builtin⟩) kioskMachine =
          perform l.complete machine ∧
        HandsOver kiosk [("agent", "moz")] kioskRecord ["show", "hide", "show"] l.context l.results l.initial ∧
        l.results.map (fun r => (r.ids, r.selections.map (·.entries))) =
          [([0, 2], [[("locale", "en")], [("locale", "fr")]]), ([1], [[("locale", "fr")]])] := by
  obtain ⟨l, machine, hgather, hresults⟩ : ∃ l machine,
      perform (Linking.gather kiosk kioskRecord [⟨"0.js"⟩, ⟨"1.js"⟩, ⟨"2.js"⟩] ⟨[("agent", "moz")], .builtin⟩) kioskMachine =
          (.ok l, machine) ∧
        l.results.map (fun r => (r.ids, r.selections.map (·.entries))) =
          [([0, 2], [[("locale", "en")], [("locale", "fr")]]), ([1], [[("locale", "fr")]])] :=
    ⟨_, _, rfl, by decide +kernel⟩
  have hfiles : List.Forall₂ kioskMachine.disk.Holds [⟨"0.js"⟩, ⟨"1.js"⟩, ⟨"2.js"⟩] ["show", "hide", "show"] :=
    .cons ⟨_, rfl, rfl⟩ (.cons ⟨_, rfl, rfl⟩ (.cons ⟨_, rfl, rfl⟩ .nil))
  obtain ⟨hlink, hover⟩ := link_handsOver read_kioskRecord (by decide) hfiles hgather
  exact ⟨l, machine, hgather, hlink, hover, hresults⟩

end DeferredBinding
