import DeferredBinding.Artifact.Set

/-!
# What a set of artifacts holds

An artifact of a new identity goes to the end of a set (`entries_add_of_new`), and one that is there already changes nothing
(`add_eq_self`). Of a list of artifacts with different identities, the new ones go to the end in their order
(`identities_addAll`). Results with different strong names are all held, in their order (`compilations_ofList`), and files leave
them as they are (`compilations_addAll_of_emitted`).
-/

namespace DeferredBinding.ArtifactSet

/-- What is listed after a placement is the artifact placed or was listed before. -/
theorem mem_place {a b : Artifact} {l : List Artifact} (h : b ∈ place a l) : b = a ∨ b ∈ l := by
  induction l with
  | nil => exact Or.inl (List.mem_singleton.1 h)
  | cons c l ih =>
    simp only [place] at h
    split at h
    · rcases List.mem_cons.1 h with h | h
      · exact Or.inl h
      · exact Or.inr (List.mem_cons_of_mem _ h)
    · rcases List.mem_cons.1 h with h | h
      · exact Or.inr (List.mem_cons.2 (Or.inl h))
      · exact (ih h).imp_right (List.mem_cons_of_mem _)

/-- What a set holds after a list of artifacts is added is in the list or was in the set. -/
theorem mem_entries_addAll {s : ArtifactSet} {l : List Artifact} {a : Artifact} (h : a ∈ (s.addAll l).entries) :
    a ∈ l ∨ a ∈ s.entries := by
  induction l generalizing s with
  | nil => exact Or.inr h
  | cons b l ih =>
    rcases ih h with h | h
    · exact Or.inl (List.mem_cons_of_mem _ h)
    · rcases mem_place h with rfl | h
      · exact Or.inl (List.mem_cons_self ..)
      · exact Or.inr h

/-- An artifact with an identity that is not listed is placed at the end. -/
theorem place_of_new {a : Artifact} {l : List Artifact} (h : a.identity ∉ l.map Artifact.identity) : place a l = l ++ [a] := by
  induction l with
  | nil => rfl
  | cons b l ih =>
    rw [List.map_cons, List.mem_cons, not_or] at h
    rw [place, if_neg (fun he => h.1 he.symm), ih h.2, List.cons_append]

/-- An artifact with a new identity goes to the end of a set. -/
theorem entries_add_of_new {s : ArtifactSet} {a : Artifact} (h : a.identity ∉ s.identities) :
    (s.add a).entries = s.entries ++ [a] :=
  place_of_new h

/-- Artifacts with different new identities go to the end of a set in their order. -/
theorem entries_addAll_of_new {s : ArtifactSet} {l : List Artifact} (hd : (l.map Artifact.identity).Nodup)
    (hn : ∀ a ∈ l, a.identity ∉ s.identities) : (s.addAll l).entries = s.entries ++ l := by
  induction l generalizing s with
  | nil => exact (List.append_nil _).symm
  | cons a l ih =>
    rw [List.map_cons, List.nodup_cons] at hd
    have hadd := entries_add_of_new (hn a (List.mem_cons_self ..))
    have hrest : ∀ b ∈ l, b.identity ∉ (s.add a).identities := by
      intro b hb hm
      rw [identities, hadd, List.map_append, List.mem_append] at hm
      rcases hm with hm | hm
      · exact hn b (List.mem_cons_of_mem _ hb) hm
      · have he : b.identity = a.identity := by simpa using hm
        exact hd.1 (he ▸ List.mem_map_of_mem hb)
    have hall := ih hd.2 hrest
    rw [hadd, List.append_assoc] at hall
    exact hall

/-- A set made of artifacts with different identities lists them in their order. -/
theorem entries_ofList_of_distinct {l : List Artifact} (hd : (l.map Artifact.identity).Nodup) : (ofList l).entries = l :=
  entries_addAll_of_new hd fun _ _ hm => (nomatch hm)

/-- A set is made of the artifacts it lists. -/
theorem ofList_entries (s : ArtifactSet) : ofList s.entries = s :=
  ext (entries_ofList_of_distinct s.distinct)

/-! ## Lookups -/

/-- Placing an artifact that is found under its identity changes nothing. -/
theorem place_eq_self {a : Artifact} {l : List Artifact} (h : l.find? (fun b => b.identity == a.identity) = some a) :
    place a l = l := by
  induction l with
  | nil => nomatch h
  | cons b l ih =>
    by_cases hb : b.identity = a.identity
    · rw [List.find?_cons_of_pos (by simpa using hb)] at h
      rw [place, if_pos hb, Option.some.inj h]
    · rw [List.find?_cons_of_neg (by simpa using hb)] at h
      rw [place, if_neg hb, ih h]

/-- Adding an artifact that is there already changes nothing. -/
theorem add_eq_self {s : ArtifactSet} {a : Artifact} (h : s.get? a.identity = some a) : s.add a = s :=
  ext (place_eq_self h)

/-- Adding artifacts that are all there already changes nothing. -/
theorem addAll_eq_self {s : ArtifactSet} {l : List Artifact} (h : ∀ a ∈ l, s.get? a.identity = some a) : s.addAll l = s := by
  induction l with
  | nil => rfl
  | cons a l ih =>
    have hfirst := add_eq_self (h a List.mem_cons_self)
    have hrest := ih fun b hb => h b (List.mem_cons_of_mem _ hb)
    rw [addAll, List.foldl_cons, hfirst]
    exact hrest

/-- Under an identity that a list of artifacts does not have, a set holds what it held before. -/
theorem get?_addAll_of_notMem {s : ArtifactSet} {l : List Artifact} {i : ArtifactId} (h : i ∉ l.map Artifact.identity) :
    (s.addAll l).get? i = s.get? i := by
  induction l generalizing s with
  | nil => rfl
  | cons a l ih =>
    rw [List.map_cons, List.mem_cons, not_or] at h
    rw [addAll, List.foldl_cons]
    exact (ih h.2).trans (by rw [get?_add, if_neg h.1])

/-- Of artifacts with different identities, a set holds each after all are added. -/
theorem get?_addAll_of_mem {s : ArtifactSet} {l : List Artifact} (hd : (l.map Artifact.identity).Nodup) {a : Artifact}
    (ha : a ∈ l) : (s.addAll l).get? a.identity = some a := by
  induction l generalizing s with
  | nil => nomatch ha
  | cons b l ih =>
    rw [List.map_cons, List.nodup_cons] at hd
    rw [addAll, List.foldl_cons]
    rcases List.mem_cons.1 ha with rfl | ha
    · exact (get?_addAll_of_notMem hd.1).trans (by rw [get?_add, if_pos rfl])
    · exact ih hd.2 ha

/-! ## Order -/

/-- Adding an artifact keeps the identities, with a new one at the end. -/
theorem identities_add (s : ArtifactSet) (a : Artifact) :
    (s.add a).identities = s.identities ++ [a.identity].filter (· ∉ s.identities) := by
  have hplace : (s.add a).identities = if a.identity ∈ s.identities then s.identities else s.identities ++ [a.identity] :=
    identities_place a s.entries
  rw [hplace]
  split
  · rename_i h
    simp [h]
  · rename_i h
    simp [h]

/-- Adding artifacts with different identities keeps the identities, with the new ones at the end in their order. -/
theorem identities_addAll (s : ArtifactSet) {l : List Artifact} (hd : (l.map Artifact.identity).Nodup) :
    (s.addAll l).identities = s.identities ++ (l.map Artifact.identity).filter (· ∉ s.identities) := by
  induction l generalizing s with
  | nil => exact (List.append_nil _).symm
  | cons a l ih =>
    rw [List.map_cons, List.nodup_cons] at hd
    have hrest : (l.map Artifact.identity).filter (· ∉ (s.add a).identities) =
        (l.map Artifact.identity).filter (· ∉ s.identities) := by
      refine List.filter_congr fun i hi => ?_
      have hne : i ≠ a.identity := fun he => hd.1 (he ▸ hi)
      simp [identities_add, hne]
    rw [addAll, List.foldl_cons]
    refine (ih (s.add a) hd.2).trans ?_
    rw [hrest, identities_add, List.append_assoc, ← List.filter_append, List.singleton_append, List.map_cons]

/-! ## Results -/

/-- The results of a set have different strong names. -/
theorem nodup_strongNames (s : ArtifactSet) : (s.compilations.map (·.strongName)).Nodup := by
  refine List.pairwise_map.2 (List.pairwise_filterMap.2 ((List.pairwise_map.1 s.distinct).imp ?_))
  intro a b hne r hr r' hr' he
  cases a with
  | emitted e => nomatch hr
  | compilation q =>
    cases b with
    | emitted e => nomatch hr'
    | compilation q' =>
      obtain rfl := Option.some.inj hr
      obtain rfl := Option.some.inj hr'
      exact hne (congrArg (ArtifactId.mk .compilation) he)

/-- Placing a file leaves the results as they are. -/
theorem compilations_place_emitted (e : Emitted) (l : List Artifact) :
    (place (.emitted e) l).filterMap Artifact.compilation? = l.filterMap Artifact.compilation? := by
  induction l with
  | nil => rfl
  | cons b l ih =>
    simp only [place]
    split
    · rename_i hb
      cases b with
      | emitted f => rfl
      | compilation r => exact absurd (congrArg ArtifactId.kind hb) (by simp [Artifact.identity, Artifact.kind])
    · rw [List.filterMap_cons, List.filterMap_cons, ih]

/-- Files leave the results of a set as they are. -/
theorem compilations_addAll_of_emitted {s : ArtifactSet} {l : List Artifact} (h : ∀ a ∈ l, a.kind = .emitted) :
    (s.addAll l).compilations = s.compilations := by
  induction l generalizing s with
  | nil => rfl
  | cons a l ih =>
    have hrest := ih (s := s.add a) fun b hb => h b (List.mem_cons_of_mem _ hb)
    cases a with
    | compilation r => exact absurd (h _ (List.mem_cons_self ..)) (by simp [Artifact.kind])
    | emitted e => exact hrest.trans (compilations_place_emitted e s.entries)

/-- A set made of results with different strong names lists them in their order. -/
theorem entries_ofList_compilations {rs : List CompiledResult} (h : (rs.map (·.strongName)).Nodup) :
    (ofList (rs.map .compilation)).entries = rs.map .compilation := by
  have he : (rs.map Artifact.compilation).map Artifact.identity =
      (rs.map (·.strongName)).map (ArtifactId.mk .compilation) := by
    rw [List.map_map, List.map_map]
    rfl
  refine entries_ofList_of_distinct ?_
  rw [he]
  refine List.pairwise_map.2 (h.imp fun {a b} hne he => hne ?_)
  exact congrArg ArtifactId.key he

/-- A set made of results with different strong names holds them in their order. -/
theorem compilations_ofList {rs : List CompiledResult} (h : (rs.map (·.strongName)).Nodup) :
    (ofList (rs.map .compilation)).compilations = rs := by
  rw [compilations, entries_ofList_compilations h, List.filterMap_map]
  exact List.filterMap_some

end DeferredBinding.ArtifactSet
