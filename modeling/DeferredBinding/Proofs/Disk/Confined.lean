import DeferredBinding.Proofs.Disk.Walk

/-!
# What the operations on a disk change

A change is confined to some places if all that is neither above nor below one of them is kept, and all directories that are not
at or below one of them stay directories (`Confined`). The trees found at paths apart from the places are kept then
(`Confined.tree_eq`). Removing a directory is confined to it; making directories and writing files removes no directory (`Grows`).
-/

namespace DeferredBinding

/-- Neither of two locations is at or below the other. -/
def Apart (l l' : Location) : Prop :=
  ¬l <+: l' ∧ ¬l' <+: l

instance (l l' : Location) : Decidable (Apart l l') :=
  inferInstanceAs (Decidable (_ ∧ _))

theorem Apart.symm {l l' : Location} (h : Apart l l') : Apart l' l :=
  ⟨h.2, h.1⟩

/-- Two locations that are apart are not both above a third one. -/
theorem Apart.not_isPrefix {l l' x : Location} (h : Apart l l') (hl : l <+: x) : ¬l' <+: x := by
  intro hl'
  rcases List.prefix_or_prefix_of_prefix hl hl' with hpre | hpre
  · exact h.1 hpre
  · exact h.2 hpre

/-- What is below locations that are apart is apart. -/
theorem Apart.append {l l' : Location} (h : Apart l l') (rest rest' : Location) : Apart (l ++ rest) (l' ++ rest') := by
  constructor
  · intro hpre
    exact h.not_isPrefix ((List.prefix_append l rest).trans hpre) (List.prefix_append l' rest')
  · intro hpre
    exact h.symm.not_isPrefix ((List.prefix_append l' rest').trans hpre) (List.prefix_append l rest)

namespace Disk

/-- A change of a disk that is confined to some places. -/
structure Confined (places : List Location) (d d' : Disk) : Prop where
  cwd : d'.cwd = d.cwd
  kept : ∀ l, (∀ s ∈ places, Apart s l) → d'.root.at? l = d.root.at? l
  dirs : ∀ l, (∀ s ∈ places, ¬s <+: l) → d.DirAt l → d'.DirAt l

variable {d d' d'' : Disk} {p : Path} {name : String} {places : List Location}

theorem Confined.refl (places : List Location) (d : Disk) : Confined places d d :=
  ⟨rfl, fun _ _ => rfl, fun _ _ h => h⟩

theorem Confined.trans (h : Confined places d d') (h' : Confined places d' d'') : Confined places d d'' :=
  ⟨h'.cwd.trans h.cwd, fun l hl => (h'.kept l hl).trans (h.kept l hl), fun l hl hdir => h'.dirs l hl (h.dirs l hl hdir)⟩

/-- A change that is confined to some places is confined to more. -/
theorem Confined.mono {places' : List Location} (h : Confined places d d') (hsub : places ⊆ places') : Confined places' d d' :=
  ⟨h.cwd, fun l hl => h.kept l fun s hs => hl s (hsub hs), fun l hl => h.dirs l fun s hs => hl s (hsub hs)⟩

/-- The tree at a path that is apart from the places of a change is kept. -/
theorem Confined.tree_eq (h : Confined places d d') (hp : p.Descends name) (hapart : ∀ s ∈ places, Apart s (p.location d.cwd)) :
    d'.tree p = d.tree p :=
  tree_congr hp h.cwd (h.kept _ hapart)

/-- A place that can be named and is not inside the places of a change can be named after it. -/
theorem Confined.reaches (h : Confined places d d') (hp : p.Descends name) (hreach : d.Reaches p name)
    (hout : ∀ s ∈ places, ¬s <+: (p.location d.cwd).dropLast) : d'.Reaches p name :=
  hreach.mono hp h.cwd fun l hl => h.dirs l fun s hs hsl => hout s hs (hsl.trans hl)

/-- A directory that is not inside the places of a change is found after it. -/
theorem Confined.isDirectory (h : Confined places d d') (hp : p.Descends name) (hdir : d.isDirectory p = true)
    (hout : ∀ s ∈ places, ¬s <+: p.location d.cwd) : d'.isDirectory p = true := by
  obtain ⟨hreach, hat⟩ := (isDirectory_iff hp.ends).1 hdir
  refine (isDirectory_iff hp.ends).2 ⟨h.reaches hp hreach ?_, ?_⟩
  · exact fun s hs hsl => hout s hs (hsl.trans (List.dropLast_prefix _))
  · rw [h.cwd]
    exact h.dirs _ hout hat

/-- A path whose ground is a directory. -/
def Grounded (d : Disk) (p : Path) : Prop :=
  d.DirAt (ground (p.start d.cwd) p.names)

/-- The ground of a path is kept by a change that is confined to places which the path does not lead through. -/
theorem Confined.grounded (h : Confined places d d') (hp : p.Descends name) (hground : d.Grounded p)
    (hout : ∀ s ∈ places, ¬s <+: (p.location d.cwd).dropLast) : d'.Grounded p := by
  rw [Grounded, h.cwd]
  exact h.dirs _ (fun s hs hpre => hout s hs (hpre.trans (hp.ground_isPrefix d.cwd))) hground

/-! ## Updates -/

/-- A change at a location is confined to it. -/
theorem confined_update (d : Disk) (l : Location) (new : Option Node) : Confined [l] d (d.update l new) := by
  refine ⟨rfl, fun l' hl => ?_, fun l' hl hdir => ?_⟩
  · obtain ⟨h, h'⟩ := hl l (List.mem_singleton_self l)
    exact Node.at?_set_of_apart d.root new h h'
  · exact Node.IsDirAt.set hdir (hl l (List.mem_singleton_self l)) new

/-- What is put in the place of something that is no directory leaves all directories. -/
theorem DirAt.update {l l' : Location} (h : d.DirAt l') (hl : ¬d.DirAt l) (new : Option Node) : (d.update l new).DirAt l' :=
  Node.IsDirAt.set h (fun hp => hl (h.of_isPrefix hp)) new

/-- At a location in a directory there is what is put there. -/
theorem at?_update_concat {l : Location} (h : d.DirAt l) (name : String) (new : Option Node) :
    (d.update (l ++ [name]) new).root.at? (l ++ [name]) = new := by
  obtain ⟨es, hes⟩ := h
  rw [update, Node.at?_set_concat, hes]

/-- What is put where a path leads is found there. -/
theorem tree_update (hp : p.Descends name) (hreach : d.Reaches p name) (hdir : d.DirAt (p.location d.cwd).dropLast) (node : Node) :
    (d.update (p.location d.cwd) (some node)).tree p = some node := by
  refine (tree_eq_some_iff hp.ends).2 ⟨(confined_update d _ _).reaches hp hreach ?_, ?_⟩
  · exact List.forall_mem_singleton.2 (hp.ends.not_prefix_dropLast d.cwd)
  · change (d.update (p.location d.cwd) (some node)).root.at? (p.location d.cwd) = _
    rw [hp.ends.location_eq d.cwd]
    exact at?_update_concat hdir name _

/-- An empty directory put where nothing was shows nothing new below it. -/
theorem at?_update_empty {l l' : Location} (h : d.root.at? l = none) (hl : ¬l' <+: l) :
    (d.update l (some .empty)).root.at? l' = d.root.at? l' := by
  by_cases hp : l <+: l'
  · obtain ⟨rest, rfl⟩ := hp
    cases rest with
    | nil =>
      rw [List.append_nil] at hl
      exact absurd List.prefix_rfl hl
    | cons name rest =>
      rw [Node.at?_append, Node.at?_append, h]
      rcases List.eq_nil_or_concat' l with rfl | ⟨before, last, rfl⟩
      · nomatch h
      · rw [update, Node.at?_set_concat]
        split
        · rfl
        · rfl
  · exact Node.at?_set_of_apart d.root _ hp hl

/-- A directory made where nothing was is all that is new. -/
theorem view_update_empty {l : Location} (h : d.root.at? l = none) (l' : Location) :
    (d.update l (some .empty)).root.view l' = d.root.view l' ∨
      d.root.view l' = none ∧ (d.update l (some .empty)).root.view l' = some .directory ∧ l' = l := by
  by_cases hpre : l' <+: l
  · by_cases hsame : l' = l
    · subst hsame
      have hbefore : d.root.view l' = none := by
        rw [Node.view, h, Option.map_none]
      rcases List.eq_nil_or_concat' l' with rfl | ⟨before, last, rfl⟩
      · nomatch h
      · have hafter := Node.at?_set_concat d.root (some .empty) before last
        unfold Node.view at hbefore ⊢
        rw [hbefore, update, hafter]
        split
        · exact Or.inr ⟨rfl, rfl, rfl⟩
        · exact Or.inl rfl
    · refine Or.inl (Node.view_set_of_not_isPrefix d.root _ fun hback => hsame ?_)
      exact hpre.eq_of_length (Nat.le_antisymm hpre.length_le hback.length_le)
  · refine Or.inl ?_
    rw [Node.view, Node.view, at?_update_empty h hpre]

/-- What grows around or inside a place: the change is confined to it, and all directories stay. -/
structure Grows (place : Location) (d d' : Disk) : Prop extends Confined [place] d d' where
  all : ∀ l, d.DirAt l → d'.DirAt l

theorem Grows.refl (place : Location) (d : Disk) : Grows place d d :=
  ⟨.refl _ d, fun _ h => h⟩

theorem Grows.trans {place : Location} (h : Grows place d d') (h' : Grows place d' d'') : Grows place d d'' :=
  ⟨h.toConfined.trans h'.toConfined, fun l hl => h'.all l (h.all l hl)⟩

/-- A directory that is found stays where something grows. -/
theorem Grows.isDirectory {place : Location} (h : Grows place d d') (hp : p.Descends name) (hdir : d.isDirectory p = true) :
    d'.isDirectory p = true := by
  obtain ⟨hreach, hat⟩ := (isDirectory_iff hp.ends).1 hdir
  refine (isDirectory_iff hp.ends).2 ⟨hreach.mono hp h.cwd fun l _ => h.all l, ?_⟩
  rw [h.cwd]
  exact h.all _ hat

/-- Making a directory lets every place grow that is inside or around it. -/
theorem grows_update_empty {l place : Location} (h : d.root.at? l = none) (hplace : l <+: place ∨ place <+: l) :
    Grows place d (d.update l (some .empty)) := by
  have hnone : ¬d.DirAt l := by
    rintro ⟨es, hes⟩
    rw [h] at hes
    nomatch hes
  refine ⟨⟨rfl, fun l' hl => at?_update_empty h fun hp => ?_, fun l' _ hdir => hdir.update hnone _⟩, fun l' hdir =>
    hdir.update hnone _⟩
  obtain ⟨hout, hout'⟩ := hl place (List.mem_singleton_self place)
  rcases hplace with hplace | hplace
  · exact hout' (hp.trans hplace)
  · exact (List.prefix_or_prefix_of_prefix hplace hp).elim hout hout'

/-- Writing where no directory is lets every place around it grow. -/
theorem grows_update_file {l place : Location} {bytes : ByteArray} (h : ¬d.DirAt l) (hplace : place <+: l) :
    Grows place d (d.update l (some (.file bytes))) := by
  refine ⟨⟨rfl, fun l' hl => ?_, fun l' _ hdir => hdir.update h _⟩, fun l' hdir => hdir.update h _⟩
  obtain ⟨hout, hout'⟩ := hl place (List.mem_singleton_self place)
  refine Node.at?_set_of_apart d.root _ (fun hp => hout (hplace.trans hp)) fun hp => ?_
  exact (List.prefix_or_prefix_of_prefix hplace hp).elim hout hout'

/-! ## Operations -/

/-- Removing a directory removes it. -/
theorem removeTree_of_isDirectory (hp : p.EndsIn name) (h : d.isDirectory p = true) :
    d.removeTree p = (.ok (), d.update (p.location d.cwd) none) := by
  obtain ⟨hreach, es, hes⟩ := (isDirectory_iff hp).1 h
  rw [removeTree, hreach.walk_eq, (find_eq_ok_iff hp).2 ⟨hreach, rfl, hes⟩]

/-- Removing what is no directory is refused and changes nothing. -/
theorem removeTree_of_not_isDirectory (h : d.isDirectory p = false) : ∃ e, d.removeTree p = (.error e, d) := by
  rw [removeTree]
  rw [isDirectory, stat] at h
  cases d.walk p with
  | error e => exact ⟨e, rfl⟩
  | ok spot =>
    cases hfind : d.find p with
    | error e => exact ⟨e, rfl⟩
    | ok found =>
      obtain ⟨l, node⟩ := found
      cases node with
      | file bytes => exact ⟨.notDirectory, rfl⟩
      | directory es =>
        simp [hfind, Except.map] at h

/-- Nothing is at a path that leads down, if removing what is there finds nothing. -/
theorem at?_of_removeTree_notFound (hp : p.EndsIn name) (hdown : ".." ∉ p.names)
    (h : (d.removeTree p).1 = .error .notFound) : d.root.at? (p.location d.cwd) = none := by
  rw [removeTree] at h
  cases hwalk : d.walk p with
  | error e =>
    rw [hwalk] at h
    obtain rfl := Except.error.inj h
    exact at?_of_walk_notFound hp hdown hwalk
  | ok spot =>
    cases hat : d.root.at? (p.location d.cwd) with
    | none => rfl
    | some node =>
      obtain rfl := walk_eq_of_endsIn hp hwalk
      cases hfind : d.find p with
      | error e =>
        rw [hwalk, hfind] at h
        obtain rfl := Except.error.inj h
        rw [find, hwalk] at hfind
        simp only [Bind.bind, Except.bind, Reaches.spot_location hp, hat] at hfind
        split at hfind
        · cases hfind
        · cases node with
          | file bytes => cases hfind
          | directory es => cases hfind
      | ok found =>
        rw [hwalk, hfind] at h
        obtain ⟨l, node⟩ := found
        cases node with
        | file bytes => cases h
        | directory es => cases h

/-- Removing a directory is confined to it. -/
theorem confined_removeTree (hp : p.EndsIn name) (d : Disk) : Confined [p.location d.cwd] d (d.removeTree p).2 := by
  cases h : d.isDirectory p with
  | true =>
    rw [removeTree_of_isDirectory hp h]
    exact confined_update d _ none
  | false =>
    obtain ⟨e, he⟩ := removeTree_of_not_isDirectory h
    rw [he]
    exact .refl _ d

/-- A directory is made under a name where nothing was. -/
theorem makeDirectory_eq_ok (h : d.makeDirectory p = .ok d') :
    ∃ (spot : Spot) (name : String), d.walk p = .ok spot ∧ spot.last = .name name ∧ ¬nameLimit < name.utf8ByteSize ∧
      d.root.at? (p.location d.cwd) = none ∧ d' = d.update (p.location d.cwd) (some .empty) := by
  rw [makeDirectory] at h
  cases hwalk : d.walk p with
  | error e =>
    rw [hwalk] at h
    nomatch h
  | ok spot =>
    rw [hwalk] at h
    simp only [Bind.bind, Except.bind, location_of_walk hwalk] at h
    split at h
    · rename_i name hname
      split at h
      · nomatch h
      · rename_i hshort
        split at h
        · nomatch h
        · rename_i hat
          exact ⟨spot, name, rfl, hname, hshort, hat, (Except.ok.inj h).symm⟩
    · nomatch h

/-- A file is written where no directory is. -/
theorem write_eq_ok {bytes : ByteArray} (h : d.write p bytes = .ok d') :
    ¬d.DirAt (p.location d.cwd) ∧ d' = d.update (p.location d.cwd) (some (.file bytes)) := by
  rw [write] at h
  cases hwalk : d.walk p with
  | error e =>
    rw [hwalk] at h
    nomatch h
  | ok spot =>
    rw [hwalk] at h
    simp only [Bind.bind, Except.bind, location_of_walk hwalk] at h
    split at h
    · split at h
      · nomatch h
      · split at h
        · nomatch h
        · split at h
          · nomatch h
          · rename_i hdir
            exact ⟨fun ⟨es, hes⟩ => hdir es hes, (Except.ok.inj h).symm⟩
    · nomatch h

variable {source target : Path} {sourceName targetName : String}

/-- What is moved is put at the target and taken from the source. -/
theorem rename_eq_ok (hs : source.EndsIn sourceName) (ht : target.EndsIn targetName)
    (hout : ¬source.location d.cwd <+: target.location d.cwd) (h : d.rename source target = .ok d') :
    ∃ node, d.tree source = some node ∧ d.Reaches target targetName ∧
      d' = (d.update (source.location d.cwd) none).update (target.location d.cwd) (some node) := by
  rw [rename] at h
  cases hsource : d.walk source with
  | error e =>
    rw [hsource] at h
    nomatch h
  | ok spot =>
    cases htarget : d.walk target with
    | error e =>
      rw [hsource, htarget] at h
      nomatch h
    | ok spot' =>
      rw [hsource, htarget] at h
      obtain rfl := walk_eq_of_endsIn hs hsource
      obtain rfl := walk_eq_of_endsIn ht htarget
      have hne : source.location d.cwd ≠ target.location d.cwd := fun he => hout (he ▸ List.prefix_rfl)
      simp only [Bind.bind, Except.bind, Reaches.spot_location hs, Reaches.spot_location ht, if_neg hne,
        if_neg (mt List.isPrefixOf_iff_prefix.1 hout)] at h
      split at h
      · nomatch h
      · rename_i hshort
        obtain ⟨hshort, hshort'⟩ := not_or.1 hshort
        cases hat : d.root.at? (source.location d.cwd) with
        | none =>
          rw [hat] at h
          nomatch h
        | some node =>
          refine ⟨node, (tree_eq_some_iff hs).2 ⟨⟨hsource, hshort⟩, hat⟩, ⟨htarget, hshort'⟩, ?_⟩
          rw [hat] at h
          cases node with
          | file bytes =>
            dsimp only at h
            rw [if_neg (by simp)] at h
            split at h
            · nomatch h
            · exact (Except.ok.inj h).symm
          | directory es =>
            dsimp only at h
            split at h
            · nomatch h
            · nomatch h
            · exact (Except.ok.inj h).symm

/-- A directory can be moved to a place where nothing is. -/
theorem rename_of_none (hs : source.EndsIn sourceName) (ht : target.EndsIn targetName)
    (hsource : d.Reaches source sourceName) (htarget : d.Reaches target targetName)
    (hout : ¬source.location d.cwd <+: target.location d.cwd) {es : List (String × Node)}
    (hat : d.root.at? (source.location d.cwd) = some (.directory es)) (hnone : d.root.at? (target.location d.cwd) = none) :
    d.rename source target =
      .ok ((d.update (source.location d.cwd) none).update (target.location d.cwd) (some (.directory es))) := by
  have hne : source.location d.cwd ≠ target.location d.cwd := fun he => hout (he ▸ List.prefix_rfl)
  have hshort : ¬(nameLimit < sourceName.utf8ByteSize ∨ nameLimit < targetName.utf8ByteSize) :=
    not_or.2 ⟨hsource.short, htarget.short⟩
  rw [rename, hsource.walk_eq, htarget.walk_eq]
  simp only [Bind.bind, Except.bind, Reaches.spot_location hs, Reaches.spot_location ht, hat, hnone]
  rw [if_neg hshort, if_neg hne, if_neg (mt List.isPrefixOf_iff_prefix.1 hout)]

end Disk

end DeferredBinding
