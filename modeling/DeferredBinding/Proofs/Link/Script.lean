import DeferredBinding.Proofs.Link.Precompiled

/-!
# What the dispatch script finds

The script enters the strong name of every row of the dispatch table under a key, the values of the row's selection with commas
between them, and looks up the key of the values that it meets. A later row replaces an earlier one with its key, so the script
is right exactly where rows with different strong names have different keys (`rightlyFound_iff`). Keys can be confused only where
two open properties have values with commas (`keyOf_inj`, `link_script_rightlyFound_iff`): `shelves_wrongly_found` is a module for
which the script loads the wrong result.
-/

namespace DeferredBinding

/-! ## Texts with commas between them -/

/-- Two texts that are continued behind a comma, with as many commas in the one continuation as in the other. -/
theorem eq_and_eq_of_append_comma {l l' r r' : List Char} (h : l ++ ',' :: r = l' ++ ',' :: r')
    (hc : r.count ',' = r'.count ',') : l = l' ∧ r = r' := by
  rcases List.append_eq_append_iff.1 h with ⟨x, hl, hr⟩ | ⟨x, hl, hr⟩
  · cases x with
    | nil => exact ⟨by simpa using hl.symm, by simpa using hr⟩
    | cons a x =>
      -- the first continuation would have one comma more
      obtain ⟨rfl, rfl⟩ : ',' = a ∧ r = x ++ ',' :: r' := by simpa using hr
      rw [List.count_append, List.count_cons_self] at hc
      omega
  · cases x with
    | nil => exact ⟨by simpa using hl, by simpa using hr.symm⟩
    | cons a x =>
      obtain ⟨rfl, rfl⟩ : ',' = a ∧ r' = x ++ ',' :: r := by simpa using hr
      rw [List.count_append, List.count_cons_self] at hc
      omega

/-- The commas of texts without commas that are joined by commas. -/
theorem count_comma_join {l : List String} (h : ∀ s ∈ l, ',' ∉ s.toList) :
    (Text.join "," l).toList.count ',' = l.length - 1 := by
  induction l with
  | nil => rfl
  | cons s l ih =>
    have hs : s.toList.count ',' = 0 := List.count_eq_zero.2 (h s (List.mem_cons_self ..))
    cases l with
    | nil => exact hs
    | cons t l =>
      have hrest := ih fun u hu => h u (List.mem_cons_of_mem _ hu)
      simp only [String.intercalate_cons_cons, String.toList_append, List.count_append, hs, hrest]
      simp
      omega

/-- Texts joined by commas are known by the joined text, if at most one of them may have a comma. -/
theorem eq_of_join_eq {α : Type} {names : List α} (hd : names.Nodup) {f g : α → String} (comma : α → Prop)
    (hone : ∀ a ∈ names, ∀ b ∈ names, comma a → comma b → a = b)
    (hf : ∀ a ∈ names, ¬comma a → ',' ∉ (f a).toList) (hg : ∀ a ∈ names, ¬comma a → ',' ∉ (g a).toList)
    (h : Text.join "," (names.map f) = Text.join "," (names.map g)) : ∀ a ∈ names, f a = g a := by
  induction names with
  | nil => exact fun a ha => (nomatch ha)
  | cons a names ih =>
    cases names with
    | nil =>
      intro b hb
      rw [List.mem_singleton.1 hb]
      exact h
    | cons b names =>
      have hsplit : (f a).toList ++ ',' :: (Text.join "," ((b :: names).map f)).toList =
          (g a).toList ++ ',' :: (Text.join "," ((b :: names).map g)).toList := by
        have := congrArg String.toList h
        simpa using this
      have hcount : (Text.join "," ((b :: names).map f)).toList.count ',' =
          (Text.join "," ((b :: names).map g)).toList.count ',' := by
        by_cases ha : comma a
        · -- no other text has a comma, so both joins have as many as there are gaps
          have hfree : ∀ c ∈ b :: names, ¬comma c := by
            intro c hc hcc
            have he := hone a (List.mem_cons_self ..) c (List.mem_cons_of_mem _ hc) ha hcc
            exact (List.nodup_cons.1 hd).1 (he ▸ hc)
          rw [count_comma_join, count_comma_join, List.length_map, List.length_map]
          · intro s hs
            obtain ⟨c, hc, rfl⟩ := List.mem_map.1 hs
            exact hg c (List.mem_cons_of_mem _ hc) (hfree c hc)
          · intro s hs
            obtain ⟨c, hc, rfl⟩ := List.mem_map.1 hs
            exact hf c (List.mem_cons_of_mem _ hc) (hfree c hc)
        · have hfa := List.count_eq_zero.2 (hf a (List.mem_cons_self ..) ha)
          have hga := List.count_eq_zero.2 (hg a (List.mem_cons_self ..) ha)
          have := congrArg (List.count ',') hsplit
          simp only [List.count_append, List.count_cons_self, hfa, hga] at this
          omega
      obtain ⟨hhead, htail⟩ := eq_and_eq_of_append_comma hsplit hcount
      have hrest := ih (List.nodup_cons.1 hd).2 (fun c hc c' hc' => hone c (List.mem_cons_of_mem _ hc) c' (List.mem_cons_of_mem _ hc'))
        (fun c hc => hf c (List.mem_cons_of_mem _ hc)) (fun c hc => hg c (List.mem_cons_of_mem _ hc)) (String.toList_inj.1 htail)
      intro c hc
      rcases List.mem_cons.1 hc with rfl | hc
      · exact String.toList_inj.1 hhead
      · exact hrest c hc

/-! ## Keys -/

/-- A property has a value with a comma. -/
def Binding.HasComma (b : Binding) : Prop :=
  ∃ v ∈ b.values, ',' ∈ v.toList

instance (b : Binding) : Decidable b.HasComma :=
  inferInstanceAs (Decidable (∃ v ∈ b.values, ',' ∈ v.toList))

namespace Dispatch

/-- The names of a table are those that some selection of it gives a value for. -/
theorem mem_openNames_iff (table : List Answer) (name : String) :
    name ∈ openNames table ↔ ∃ a ∈ table, ∃ value, a.selection.get? name = some value := by
  rw [openNames, Dict.mem_names_iff]
  have hkey : (∃ u, (Dict.ofList (table.flatMap fun a => a.selection.entries.map fun e => (e.1, ()))).get? name = some u) ↔
      ∃ u, (name, u) ∈ table.flatMap fun a => a.selection.entries.map fun e => (e.1, ()) := by
    simp only [Dict.get?_ofList]
    constructor
    · rintro ⟨u, hu⟩
      exact ⟨u, List.mem_reverse.1 (mem_of_lookup_eq_some hu)⟩
    · rintro ⟨u, hu⟩
      cases hl : List.lookup name (table.flatMap fun a => a.selection.entries.map fun e => (e.1, ())).reverse with
      | some u' => exact ⟨u', rfl⟩
      | none => exact absurd (List.lookup_eq_none_iff.1 hl _ (List.mem_reverse.2 hu)) (by simp)
  rw [hkey]
  constructor
  · rintro ⟨u, hu⟩
    obtain ⟨a, ha, hu⟩ := List.mem_flatMap.1 hu
    obtain ⟨⟨n, v⟩, he, hn⟩ := List.mem_map.1 hu
    obtain rfl : n = name := congrArg Prod.fst hn
    exact ⟨a, ha, v, (Dict.get?_eq_some_iff _ _ _).2 he⟩
  · rintro ⟨a, ha, v, hv⟩
    refine ⟨(), List.mem_flatMap.2 ⟨a, ha, List.mem_map.2 ⟨(name, v), (Dict.get?_eq_some_iff _ _ _).1 hv, rfl⟩⟩⟩

/-- Where at most one of the properties that a table is about has values with commas, selections with one key are equal. -/
theorem keyOf_inj {bs : List Binding} (hd : (bs.map (·.name)).Nodup) (hone : ∀ b ∈ bs, ∀ b' ∈ bs, b.HasComma → b'.HasComma → b = b')
    {table : List Answer} (htable : ∀ a ∈ table, IsCombination bs a.selection) {a a' : Answer} (ha : a ∈ table) (ha' : a' ∈ table)
    (h : keyOf (openNames table) a.selection = keyOf (openNames table) a'.selection) : a.selection = a'.selection := by
  -- a name of the table is the name of a property, for which every selection gives a value of it
  have hvalue : ∀ name ∈ openNames table, ∃ b ∈ bs, b.name = name ∧
      ∀ d ∈ table, ∃ v ∈ b.values, d.selection.get? name = some v := by
    intro name hname
    obtain ⟨d, hd', v, hv⟩ := (mem_openNames_iff table name).1 hname
    obtain ⟨b, hb, rfl, _⟩ := (htable d hd').legal name v hv
    refine ⟨b, hb, rfl, fun e he => ?_⟩
    obtain ⟨w, hw⟩ := (htable e he).complete b hb
    obtain ⟨b', hb', hn, hwv⟩ := (htable e he).legal _ w hw
    rw [List.inj_on_of_nodup_map hd hb' hb hn] at hwv
    exact ⟨w, hwv, hw⟩
  have hsame : ∀ name ∈ openNames table, (a.selection.get? name).getD "" = (a'.selection.get? name).getD "" := by
    have hfree : ∀ d ∈ table, ∀ name ∈ openNames table, (¬∃ b ∈ bs, b.name = name ∧ b.HasComma) →
        ',' ∉ ((d.selection.get? name).getD "").toList := by
      intro d hd' name hname hno hcomma
      obtain ⟨b, hb, hn, hall⟩ := hvalue name hname
      obtain ⟨v, hv, hget⟩ := hall d hd'
      rw [hget] at hcomma
      exact hno ⟨b, hb, hn, v, hv, hcomma⟩
    refine eq_of_join_eq (Dict.names_nodup _) (fun name => ∃ b ∈ bs, b.name = name ∧ b.HasComma) ?_
      (hfree a ha) (hfree a' ha') h
    rintro n _ n' _ ⟨b, hb, rfl, hc⟩ ⟨b', hb', rfl, hc'⟩
    rw [hone b hb b' hb' hc hc']
  refine Dict.ext_get? fun name => ?_
  by_cases hname : name ∈ openNames table
  · obtain ⟨b, _, _, hall⟩ := hvalue name hname
    obtain ⟨v, _, hv⟩ := hall a ha
    obtain ⟨v', _, hv'⟩ := hall a' ha'
    have := hsame name hname
    rw [hv, hv'] at this
    rw [hv, hv']
    exact congrArg some this
  · have hnone : ∀ d ∈ table, d.selection.get? name = none := by
      intro d hd'
      refine Option.eq_none_iff_forall_ne_some.2 fun v hv => hname ?_
      exact (mem_openNames_iff table name).2 ⟨d, hd', v, hv⟩
    rw [hnone a ha, hnone a' ha']

/-! ## The assignments of the script -/

/-- The keys and strong names that the script of a table enters, in order. -/
def assignments (table : List Answer) : List (String × String) :=
  table.map fun a => (keyOf (openNames table) a.selection, a.result.strongName)

/-- The line that enters a strong name under a key. -/
def assignmentLine (p : String × String) : String :=
  line ["  answers[", Json.quoted p.1, "] = ", Json.quoted p.2, ";"]

/-- A script enters strong names in order: their lines stand one after the other, with at most a remark before each. -/
def Enters (text : String) (ps : List (String × String)) : Prop :=
  ∃ (before after : String) (remarks : List String), remarks.length = ps.length ∧
    text = before ++ Text.concat (List.zipWith (fun remark p => remark ++ assignmentLine p) remarks ps) ++ after

/-- What a script finds under a key after it has entered strong names in order, each in the place of an earlier one with its
key. -/
def found? (ps : List (String × String)) (key : String) : Option String :=
  (Dict.ofList ps).get? key

/-- A text inside another is inside its continuations. -/
theorem exists_append_of_append {part text : String} (h : ∃ before after : String, text = before ++ part ++ after)
    (more : String) : ∃ before after : String, text ++ more = before ++ part ++ after := by
  obtain ⟨before, after, rfl⟩ := h
  exact ⟨before, after ++ more, String.append_assoc ..⟩

/-- The script of a table enters its assignments. -/
theorem enters_script (c : LinkContext) (table : List Answer) : Enters (script c table) (assignments table) := by
  have hlines : ∀ (names : List String) (rows : List Answer), ∃ remarks : List String, remarks.length = rows.length ∧
      rows.map (answerLines c.style names) = List.zipWith (fun remark p => remark ++ assignmentLine p) remarks
        (rows.map fun a => (keyOf names a.selection, a.result.strongName)) := by
    intro names rows
    induction rows with
    | nil => exact ⟨[], rfl, rfl⟩
    | cons a rows ih =>
      obtain ⟨remarks, hlen, he⟩ := ih
      refine ⟨(if c.style == .detailed then line ["  // permutations ", Text.join ", " (a.result.ids.map Text.decimal)]
        else "") :: remarks, by simp [hlen], ?_⟩
      rw [List.map_cons, List.map_cons, List.zipWith_cons_cons, he]
      rfl
  obtain ⟨remarks, hlen, he⟩ := hlines (openNames table) table
  have hinside : ∃ before after : String,
      script c table = before ++ Text.concat (table.map (answerLines c.style (openNames table))) ++ after := by
    unfold script
    iterate 7 refine exists_append_of_append ?_ _
    exact ⟨_, "", (String.append_empty ..).symm⟩
  obtain ⟨before, after, hscript⟩ := hinside
  refine ⟨before, after, remarks, by simp [hlen, assignments], ?_⟩
  rw [hscript, he]
  rfl

/-! ## What the script finds -/

/-- Strong names are found under their keys exactly where no two are entered under one key. -/
theorem found?_eq_some_iff (ps : List (String × String)) :
    (∀ p ∈ ps, found? ps p.1 = some p.2) ↔ ∀ p ∈ ps, ∀ q ∈ ps, p.1 = q.1 → p.2 = q.2 := by
  constructor
  · intro h p hp q hq he
    have hq' := h q hq
    rw [← he, h p hp] at hq'
    exact Option.some.inj hq'
  · intro h p hp
    rw [found?, Dict.get?_ofList]
    cases hl : List.lookup p.1 ps.reverse with
    | none => exact absurd (List.lookup_eq_none_iff.1 hl p (List.mem_reverse.2 hp)) (by simp)
    | some name =>
      have hq : (p.1, name) ∈ ps := List.mem_reverse.1 (mem_of_lookup_eq_some hl)
      rw [h p hp _ hq rfl]

/-- The script of a list of results is right: for every selection that a result records it finds the result's strong name. -/
def RightlyFound (results : List CompiledResult) : Prop :=
  ∀ r ∈ results, ∀ s ∈ r.selections,
    found? (assignments (results.flatMap answersOf)) (keyOf (openNames (results.flatMap answersOf)) s) = some r.strongName

instance (results : List CompiledResult) : Decidable (RightlyFound results) := by
  unfold RightlyFound
  infer_instance

/-- No two different strong names are entered under one key. -/
def Unmistakable (results : List CompiledResult) : Prop :=
  ∀ p ∈ assignments (results.flatMap answersOf), ∀ q ∈ assignments (results.flatMap answersOf), p.1 = q.1 → p.2 = q.2

/-- The script is right exactly where no two different strong names are entered under one key. -/
theorem rightlyFound_iff (results : List CompiledResult) : RightlyFound results ↔ Unmistakable results := by
  rw [Unmistakable, ← found?_eq_some_iff]
  constructor
  · intro h p hp
    obtain ⟨a, ha, rfl⟩ := List.mem_map.1 hp
    obtain ⟨r, hr, ha⟩ := List.mem_flatMap.1 ha
    obtain ⟨s, hs, rfl⟩ := List.mem_map.1 ha
    exact h r hr s hs
  · intro h r hr s hs
    have ha : (⟨s, r⟩ : Answer) ∈ results.flatMap answersOf := List.mem_flatMap.2 ⟨r, hr, List.mem_map.2 ⟨s, hs, rfl⟩⟩
    exact h _ (List.mem_map.2 ⟨_, ha, rfl⟩)

/-- Where no selection is recorded twice and at most one property has values with commas, no two strong names are entered under
one key. -/
theorem unmistakable_of_commas {bs : List Binding} (hd : (bs.map (·.name)).Nodup)
    (hone : ∀ b ∈ bs, ∀ b' ∈ bs, b.HasComma → b'.HasComma → b = b') {results : List CompiledResult}
    (honce : (results.flatMap (·.selections)).Nodup) (hsel : ∀ r ∈ results, ∀ s ∈ r.selections, IsCombination bs s) :
    Unmistakable results := by
  intro p hp q hq he
  obtain ⟨a, ha, rfl⟩ := List.mem_map.1 hp
  obtain ⟨a', ha', rfl⟩ := List.mem_map.1 hq
  have htable : ∀ d ∈ results.flatMap answersOf, IsCombination bs d.selection := by
    intro d hd
    obtain ⟨r, hr, hd⟩ := List.mem_flatMap.1 hd
    obtain ⟨s, hs, rfl⟩ := List.mem_map.1 hd
    exact hsel r hr s hs
  have hrows : ((results.flatMap answersOf).map (·.selection)).Nodup := by
    rw [map_selection_answersOf]
    exact honce
  rw [List.inj_on_of_nodup_map hrows ha ha' (keyOf_inj hd hone htable ha ha' he)]

end Dispatch

/-- A link of a precompiled record writes a script that enters the strong names of its results in order. The script is right
exactly where no two different strong names are entered under one key, and it is right where at most one open property has
values with commas. -/
theorem link_script_rightlyFound_iff {mod : Module} {pins : List (String × String)} {record : Record} {files : List Path}
    {codes : List String} {options : LinkOptions} {machine : Machine}
    (h : PrecompiledLink mod pins record files codes options machine.disk) :
    ∃ s machine' text, perform (link mod record files options) machine = (.ok s, machine') ∧
      s.get? ⟨.emitted, Dispatch.scriptFile mod.name⟩ =
        some (.emitted (.ofText Dispatch.linkerName (Dispatch.scriptFile mod.name) text)) ∧
      Dispatch.Enters text (Dispatch.assignments (s.compilations.flatMap Dispatch.answersOf)) ∧
      (Dispatch.RightlyFound s.compilations ↔ Dispatch.Unmistakable s.compilations) ∧
      ((∀ b ∈ mod.properties.openBindings (pins ++ options.pins), ∀ b' ∈ mod.properties.openBindings (pins ++ options.pins),
        b.HasComma → b'.HasComma → b = b') → Dispatch.RightlyFound s.compilations) := by
  obtain ⟨s, machine', c, m, hlink, hperms, hlinked⟩ := h.perform_link
  have hscript := hlinked.script
  rw [Dispatch.scriptArtifact, hlinked.named] at hscript
  refine ⟨s, machine', _, hlink, hscript, Dispatch.enters_script c _, Dispatch.rightlyFound_iff _, fun hone => ?_⟩
  have hnames : ((mod.properties.openBindings (pins ++ options.pins)).map (·.name)).Nodup :=
    (List.filter_sublist.map _).nodup (List.nodup_append.1 h.reachable.wellFormed.distinct).1
  rw [Dispatch.rightlyFound_iff]
  refine Dispatch.unmistakable_of_commas hnames hone hlinked.nodup_selections fun r hr t ht => ?_
  exact hlinked.narrowed.isCombination_of_mem ((hlinked.mem_selections_iff t).1 (List.mem_flatMap.2 ⟨r, hr, ht⟩))

/-- The script of `greeter` is right: none of its open properties has values with commas. -/
theorem greeter_script_rightlyFound :
    PrecompiledLink greeter [("agent", "moz")] greeterRecord [⟨"0.js"⟩, ⟨"1.js"⟩] ["bonjour", "hello"]
        ⟨[("debug", "false"), ("agent", "moz")], .builtin⟩ greeterMachine.disk ∧
      ∃ s machine', perform (link greeter greeterRecord [⟨"0.js"⟩, ⟨"1.js"⟩]
          ⟨[("debug", "false"), ("agent", "moz")], .builtin⟩) greeterMachine = (.ok s, machine') ∧
        Dispatch.RightlyFound s.compilations := by
  obtain ⟨s, machine', _, hlink, _, _, _, hright⟩ := link_script_rightlyFound_iff greeter_precompiledLink
  exact ⟨greeter_precompiledLink, s, machine', hlink, hright (by decide)⟩

/-- A module with two properties that have values with commas; those of the first compile alike. -/
def shelves : Module :=
  .plain "shelves" ⟨[⟨"a", ["x", "x,y"], [], true, none⟩, ⟨"b", ["y,z", "z"], [], false, none⟩], []⟩

/-- A record of `shelves`. -/
def shelvesRecord : Record :=
  ⟨"shelves", .pretty, "", shelves.properties.permutations, .empty, .empty⟩

/-- A machine with a result for each permutation of `shelvesRecord`. -/
def shelvesMachine : Machine where
  disk := ⟨.directory [("0.js", .file "zero".toUTF8), ("1.js", .file "one".toUTF8)], []⟩
  notes := []

/-- The script of `shelves` is wrong: the values `x` and `y,z` have the same key as `x,y` and `z`. -/
theorem shelves_wrongly_found :
    ∃ s ∈ (perform (link shelves shelvesRecord [⟨"0.js"⟩, ⟨"1.js"⟩] ⟨[], .builtin⟩) shelvesMachine).1.toOption,
      ¬Dispatch.RightlyFound s.compilations := by
  decide +kernel

end DeferredBinding
