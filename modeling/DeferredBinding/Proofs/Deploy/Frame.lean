import DeferredBinding.Proofs.Deploy.Resolved

/-!
# What writing the output touches

A run that writes the output is a sequence of changes, each at or below one of the places of the layout, or the making of an
empty directory on the way to one (`Touches`). So all else on the disk is spared (`Touches.spared`), whatever texts the paths
are given as and whether or not the run succeeds (`produce_spares_rest`).
-/

namespace DeferredBinding

/-! ## Places and ways -/

/-- The locations that a path leads through: those of the paths that its first names make up. -/
def Path.Passes (cwd : Location) (p : Path) (l : Location) : Prop :=
  ∃ front, front <+: p.names ∧ front ≠ [] ∧ l = front.foldl climb (p.start cwd)

/-- The directories that a path enters: it leads through them by name, on the way to its last name. -/
def Path.Enters (cwd : Location) (p : Path) (l : Location) : Prop :=
  ∃ before name after, p.names = before ++ name :: after ∧ name ≠ ".." ∧ after ≠ [] ∧
    l = (before ++ [name]).foldl climb (p.start cwd)

/-- A path passes through the directories that it enters. -/
theorem Path.Enters.passes {cwd l : Location} {p : Path} (h : p.Enters cwd l) : p.Passes cwd l := by
  obtain ⟨before, name, after, hnames, -, -, hl⟩ := h
  exact ⟨before ++ [name], ⟨after, by rw [hnames, ← List.append_cons]⟩, by simp, hl⟩

/-- What may be touched: everything at and below some places, and missing directories on the way to them. -/
structure Scope where
  places : List Location
  way : Location → Prop

namespace Scope

/-- A location is at or below one of the places. -/
def Inside (s : Scope) (l : Location) : Prop :=
  ∃ place ∈ s.places, place <+: l

/-- `d'` is `d` after changes one at a time, each inside the scope, or the making of a directory on its way where nothing was. -/
inductive Touches (s : Scope) : Disk → Disk → Prop where
  | refl (d : Disk) : Touches s d d
  | inside {d d' : Disk} {l : Location} (new : Option Node) : Touches s d d' → s.Inside l → Touches s d (d'.update l new)
  | opened {d d' : Disk} {l : Location} : Touches s d d' → s.way l → d'.root.at? l = none →
      Touches s d (d'.update l (some .empty))

/-- What is not inside a scope is spared: it is kept, but for directories on the way that were missing. -/
structure Spares (s : Scope) (d d' : Disk) : Prop where
  cwd : d'.cwd = d.cwd
  kept : ∀ l, ¬s.Inside l → d'.root.view l = d.root.view l ∨
    d.root.view l = none ∧ d'.root.view l = some .directory ∧ s.way l

variable {s : Scope} {d d' d'' : Disk}

/-- Changes inside a scope may follow one another. -/
theorem Touches.trans (h : s.Touches d d') (h' : s.Touches d' d'') : s.Touches d d'' := by
  induction h' with
  | refl => exact h
  | inside new _ hl ih => exact .inside new ih hl
  | opened _ hl hnone ih => exact .opened ih hl hnone

/-- Changes of the tree leave the working directory. -/
theorem Touches.cwd_eq (h : s.Touches d d') : d'.cwd = d.cwd := by
  induction h with
  | refl => rfl
  | inside _ _ _ ih => exact ih
  | opened _ _ _ ih => exact ih

/-- A change inside a scope is not seen outside. -/
theorem view_update_of_not_inside {l l' : Location} (hl : s.Inside l) (hl' : ¬s.Inside l') (new : Option Node) :
    (d.update l new).root.view l' = d.root.view l' := by
  refine Node.view_set_of_not_isPrefix d.root new fun hpre => hl' ?_
  obtain ⟨place, hplace, hbelow⟩ := hl
  exact ⟨place, hplace, hbelow.trans hpre⟩

/-- Changes that touch only a scope spare the rest. -/
theorem Touches.spared (h : s.Touches d d') : s.Spares d d' := by
  refine ⟨h.cwd_eq, fun l hl => ?_⟩
  induction h with
  | refl => exact Or.inl rfl
  | inside new _ hinside ih =>
    rw [view_update_of_not_inside hinside hl]
    exact ih
  | opened _ hway hnone ih =>
    rcases Disk.view_update_empty hnone l with heq | ⟨hbefore, hdir, rfl⟩
    · rw [heq]
      exact ih
    · rcases ih with hkept | ⟨-, hmade, -⟩
      · exact Or.inr ⟨hkept.symm.trans hbefore, hdir, hway⟩
      · rw [hbefore] at hmade
        nomatch hmade

end Scope

/-! ## Operations on the disk -/

namespace Disk

variable {d d' : Disk} {p : Path}

/-- What is found at a path is found at its location. -/
theorem location_of_find {l : Location} {node : Node} (h : d.find p = .ok (l, node)) : l = p.location d.cwd := by
  unfold find at h
  cases hwalk : d.walk p with
  | error e =>
    rw [hwalk] at h
    nomatch h
  | ok spot =>
    rw [hwalk] at h
    simp only [Bind.bind, Except.bind, location_of_walk hwalk] at h
    split at h
    · split at h
      · nomatch h
      · split at h
        · nomatch h
        · split at h
          · nomatch h
          · exact (Prod.mk.inj (Except.ok.inj h)).1.symm
        · exact (Prod.mk.inj (Except.ok.inj h)).1.symm
    · split at h
      · nomatch h
      · split at h
        · nomatch h
        · exact (Prod.mk.inj (Except.ok.inj h)).1.symm
      · exact (Prod.mk.inj (Except.ok.inj h)).1.symm

/-- Removing what is at a path changes nothing, or what is at its location. -/
theorem removeTree_cases (d : Disk) (p : Path) :
    (d.removeTree p).2 = d ∨ ∃ new, (d.removeTree p).2 = d.update (p.location d.cwd) new := by
  unfold removeTree
  split
  · rename_i hfind
    obtain rfl := location_of_find hfind
    right
    split
    · exact ⟨_, rfl⟩
    · exact ⟨_, rfl⟩
    · exact ⟨_, rfl⟩
    · exact ⟨_, rfl⟩
  · exact Or.inl rfl
  · exact Or.inl rfl
  · exact Or.inl rfl

/-- Moving changes nothing, or what is at the locations of both paths. -/
theorem rename_cases {source target : Path} (h : d.rename source target = .ok d') :
    d' = d ∨ ∃ node, d' = (d.update (source.location d.cwd) none).update (target.location d.cwd) (some node) := by
  unfold rename at h
  cases hsource : d.walk source with
  | error e =>
    rw [hsource] at h
    nomatch h
  | ok spot =>
    cases htarget : d.walk target with
    | error e =>
      rw [hsource, htarget] at h
      nomatch h
    | ok spot' =>
      rw [hsource, htarget] at h
      simp only [Bind.bind, Except.bind, location_of_walk hsource, location_of_walk htarget] at h
      split at h
      · split at h
        · nomatch h
        · split at h
          · nomatch h
          · -- a file is moved
            split at h
            · nomatch h
            · split at h
              · nomatch h
              · split at h
                · exact Or.inl (Except.ok.inj h).symm
                · exact Or.inr ⟨_, (Except.ok.inj h).symm⟩
          · -- a directory is moved
            split at h
            · exact Or.inl (Except.ok.inj h).symm
            · split at h
              · nomatch h
              · split at h
                · nomatch h
                · nomatch h
                · exact Or.inr ⟨_, (Except.ok.inj h).symm⟩
      · nomatch h

end Disk

namespace Scope

variable {s : Scope} {d d' : Disk} {p : Path} {cwd : Location}

/-- Removing a tree inside a scope touches only the scope, also where it is refused. -/
theorem touches_removeTree (hp : s.Inside (p.location d.cwd)) : s.Touches d (d.removeTree p).2 := by
  rcases d.removeTree_cases p with heq | ⟨new, heq⟩
  · rw [heq]
    exact .refl d
  · rw [heq]
    exact .inside new (.refl d) hp

/-- Writing a file inside a scope touches only the scope. -/
theorem touches_write {bytes : ByteArray} (hp : s.Inside (p.location d.cwd)) (h : d.write p bytes = .ok d') :
    s.Touches d d' := by
  rw [(Disk.write_eq_ok h).2]
  exact .inside _ (.refl d) hp

/-- Moving a tree from one place of a scope to another touches only the scope. -/
theorem touches_rename {source target : Path} (hsource : s.Inside (source.location d.cwd))
    (htarget : s.Inside (target.location d.cwd)) (h : d.rename source target = .ok d') : s.Touches d d' := by
  rcases Disk.rename_cases h with rfl | ⟨node, rfl⟩
  · exact .refl d'
  · exact .inside _ (.inside none (.refl d) hsource) htarget

/-- A location may be given a directory: it is inside a scope, or on the way to it. -/
def Admits (s : Scope) (l : Location) : Prop :=
  s.Inside l ∨ s.way l

/-- A path may be given a directory, if it ends in a name. -/
def AdmitsPath (s : Scope) (cwd : Location) (p : Path) : Prop :=
  ∀ before name, p.names = before ++ [name] → name ≠ ".." → s.Admits (p.location cwd)

/-- A directory that may be made is made inside the scope or on the way to it. -/
theorem touches_makeDirectory (hp : s.AdmitsPath d.cwd p) (h : d.makeDirectory p = .ok d') : s.Touches d d' := by
  obtain ⟨spot, name, hwalk, hname, -, hnone, rfl⟩ := Disk.makeDirectory_eq_ok h
  obtain ⟨hnames, hne⟩ := Disk.names_of_walk hwalk hname
  rcases hp _ _ hnames hne with hinside | hway
  · exact .inside _ (.refl d) hinside
  · exact .opened (.refl d) hway hnone

/-! ## Programs that touch only a scope -/

/-- A program touches only a scope, whatever comes of it. -/
def Confines {α : Type} (s : Scope) (cwd : Location) (x : ExceptT LinkError (StateM Machine) α) : Prop :=
  ∀ m : Machine, m.disk.cwd = cwd → s.Touches m.disk (perform x m).2.disk

variable {α β : Type} {x : ExceptT LinkError (StateM Machine) α}

/-- A step that leaves the disk as it is. -/
theorem confines_of_disk_eq (h : ∀ m, (perform x m).2.disk = m.disk) : s.Confines cwd x := by
  intro m _
  rw [h m]
  exact .refl _

/-- Programs that touch only a scope may follow one another. -/
theorem Confines.bind {f : α → ExceptT LinkError (StateM Machine) β} (hx : s.Confines cwd x) (hf : ∀ a, s.Confines cwd (f a)) :
    s.Confines cwd (x >>= f) := by
  intro m hcwd
  have hfirst := hx m hcwd
  rw [perform_bind]
  split
  · rename_i a m' h
    rw [h] at hfirst
    exact hfirst.trans (hf a m' (hfirst.cwd_eq.trans hcwd))
  · rename_i e m' h
    rw [h] at hfirst
    exact hfirst

/-- A program that removes its stage when it fails touches only a scope that has the stage. -/
theorem Confines.discarding {stage : Path} (hx : s.Confines cwd x) (hstage : s.Inside (stage.location cwd)) :
    s.Confines cwd (Output.discarding stage x) := by
  intro m hcwd
  rcases hrun : perform (Output.discarding stage x) m with ⟨r, m'⟩
  obtain ⟨m₁, hstep, hend⟩ := Output.perform_discarding hrun
  have hfirst := hx m hcwd
  rw [hstep] at hfirst
  rcases hend with ⟨-, rfl⟩ | ⟨-, hdisk⟩
  · exact hfirst
  · rw [← hfirst.cwd_eq.trans hcwd] at hstage
    rw [hdisk]
    exact hfirst.trans (touches_removeTree hstage)

/-- A step on the disk touches only a scope if the disk says so, whatever path its failure names. -/
theorem confines_onDisk {x : StateM Machine (Except Refusal Unit)}
    (h : ∀ m : Machine, m.disk.cwd = cwd → s.Touches m.disk (x.run m).2.disk) (p : Path) :
    s.Confines cwd (Output.onDisk p x) := by
  intro m hcwd
  rcases hrun : x.run m with ⟨r, m'⟩
  have hx := h m hcwd
  rw [hrun] at hx
  rw [Output.perform_onDisk hrun]
  exact hx

/-- Clearing a place of a scope touches only the scope. -/
theorem confines_clear (hp : s.Inside (p.location cwd)) (q : Path) : s.Confines cwd (Output.onDisk q (Host.clear p)) := by
  refine confines_onDisk (fun m hcwd => ?_) q
  obtain ⟨r, m₁, hrun, hdisk⟩ := exists_run_clear m p
  rw [hrun, hdisk]
  exact touches_removeTree (hcwd ▸ hp)

/-- Making a directory and those above it touches only a scope that admits them all. -/
theorem confines_makeDirectories (hp : ∀ q ∈ p.ancestors, s.AdmitsPath cwd q) (q : Path) :
    s.Confines cwd (Output.onDisk q (Host.makeDirectories p)) := by
  refine confines_onDisk (fun m hcwd => ?_) q
  rcases hrun : (Host.makeDirectories p : StateM Machine (Except Refusal Unit)).run m with ⟨r, m'⟩
  refine (makeDirectoriesOf_induction (R := s.Touches) .refl .trans (fun q hq d d' hsame hmake => ?_) hrun).1
  refine touches_makeDirectory ?_ hmake
  rw [hsame, hcwd]
  exact hp q hq

/-- A step that changes the disk in one go. -/
theorem touches_run_change {f : Disk → Except Refusal Disk} {m : Machine} (h : ∀ d, f m.disk = .ok d → s.Touches m.disk d) :
    s.Touches m.disk ((Machine.change f).run m).2.disk := by
  cases hf : f m.disk with
  | error e =>
    rw [run_change_of_error hf]
    exact .refl _
  | ok d =>
    rw [run_change_of_ok hf]
    exact h d hf

/-- Writing a file to a place of a scope touches only the scope. -/
theorem confines_write {bytes : ByteArray} (hp : s.Inside (p.location cwd)) (q : Path) :
    s.Confines cwd (Output.onDisk q (Host.write p bytes)) := by
  refine confines_onDisk (fun m hcwd => ?_) q
  refine touches_run_change (f := (·.write p bytes)) fun d h => ?_
  exact touches_write (hcwd ▸ hp) h

/-- Moving one place of a scope to another touches only the scope. -/
theorem confines_rename {source target : Path} (hsource : s.Inside (source.location cwd))
    (htarget : s.Inside (target.location cwd)) (q : Path) :
    s.Confines cwd (Output.onDisk q (Host.rename source target)) := by
  refine confines_onDisk (fun m hcwd => ?_) q
  refine touches_run_change (f := (·.rename source target)) fun d h => ?_
  exact touches_rename (hcwd ▸ hsource) (hcwd ▸ htarget) h

/-! ## Writing the output -/

/-- A file is staged by making the directories around it and writing it. -/
theorem confines_stageFile {stage : Path} {e : Emitted}
    (hway : ∀ parent, (stage.join e.path).parent? = some parent → ∀ q ∈ parent.ancestors, s.AdmitsPath cwd q)
    (hfile : s.Inside ((stage.join e.path).location cwd)) : s.Confines cwd (Output.stageFile stage e) := by
  have hwrite : s.Confines cwd (do
      Output.onDisk (stage.join e.path) (Host.write (stage.join e.path) e.contents)
      (Host.log ⟨.debug, Output.origin, "Staged " ++ e.path ++ " from " ++ e.producer⟩ : StateM Machine Unit)) :=
    (confines_write hfile _).bind fun _ => confines_of_disk_eq fun m => rfl
  unfold Output.stageFile
  dsimp only
  split
  · rename_i parent hparent
    exact (confines_makeDirectories (hway parent hparent) _).bind fun _ => hwrite
  · exact hwrite

/-- A scope has room for the staging directory of a directory. -/
structure Holds (s : Scope) (cwd : Location) (target : Path) : Prop where
  named : ∃ before name, target.names = before ++ [name] ∧ name ≠ ".."
  stage : s.Inside ((Output.stagingDir target).location cwd)
  way : ∀ l, target.Enters cwd l → s.way l

variable {target : Path}

/-- What is below a location inside a scope is inside it. -/
theorem Inside.append {l : Location} (h : s.Inside l) (l' : Location) : s.Inside (l ++ l') := by
  obtain ⟨place, hplace, hpre⟩ := h
  exact ⟨place, hplace, hpre.trans (List.prefix_append l l')⟩

/-- A path that leads along the names of a staging directory, and on down from it, leads into it or along the way. -/
theorem Holds.admits (hs : s.Holds cwd target) {q : Path} (tail : List String) (hdown : ".." ∉ tail)
    (habs : q.isAbsolute = (Output.stagingDir target).isAbsolute)
    (hpre : q.names <+: (Output.stagingDir target).names ++ tail) : s.AdmitsPath cwd q := by
  intro front last hq hlast
  obtain ⟨before, name, hnames, hname⟩ := hs.named
  obtain ⟨hstart, hstage⟩ := Output.names_stagingDir hnames hname
  by_cases hlong : (Output.stagingDir target).names <+: q.names
  · -- the path leads through the staging directory
    obtain ⟨rest, hrest⟩ := hlong
    have hsub : rest <+: tail := by
      rw [← hrest] at hpre
      exact (List.prefix_append_right_inj _).1 hpre
    have hlocation : q.location cwd = (Output.stagingDir target).location cwd ++ rest := by
      rw [Path.location, ← hrest, List.foldl_append, foldl_climb_of_down fun hm => hdown (hsub.subset hm), Path.start, habs]
      rfl
    rw [hlocation]
    exact Or.inl (hs.stage.append rest)
  · -- it ends above the staging directory, and so on the way to the directory itself
    have hshort : q.names <+: before := by
      rcases List.prefix_or_prefix_of_prefix hpre (List.prefix_append _ tail) with hshort | hback
      · rw [hstage, List.prefix_concat_iff] at hshort
        rcases hshort with heq | hshort
        · rw [hstage, heq] at hlong
          exact absurd List.prefix_rfl hlong
        · exact hshort
      · exact absurd hback hlong
    obtain ⟨rest, hrest⟩ := hshort
    refine Or.inr (hs.way _ ⟨front, last, rest ++ [name], ?_, hlast, by simp, ?_⟩)
    · rw [hnames, ← hrest, hq]
      simp
    · rw [Path.location, hq, Path.start, Path.start, habs, hstart]

/-- Opening a stage touches only a scope that has room for it. -/
theorem Holds.openStage (hs : s.Holds cwd target) : s.Confines cwd (Output.openStage (Output.stagingDir target)) := by
  refine (confines_clear hs.stage _).bind fun _ => confines_makeDirectories (fun q hq => ?_) _
  obtain ⟨habs, hpre⟩ := Path.of_mem_ancestors hq
  refine hs.admits [] List.not_mem_nil habs ?_
  rw [List.append_nil]
  exact hpre

/-- Staging a file under a plain name touches only a scope that has room for the stage. -/
theorem Holds.stageFile (hs : s.Holds cwd target) {e : Emitted} (he : (⟨e.path⟩ : Path).isPlain = true) :
    s.Confines cwd (Output.stageFile (Output.stagingDir target) e) := by
  obtain ⟨hrel, hdown⟩ := Path.isPlain_spec he
  have habs := (Output.stagingDir target).isAbsolute_join hrel
  have hnames := (Output.stagingDir target).names_join hrel
  refine confines_stageFile (fun parent hparent q hq => ?_) ?_
  · obtain ⟨hparentAbs, hparentNames⟩ := Path.parent?_eq_some hparent
    obtain ⟨hqAbs, hqNames⟩ := Path.of_mem_ancestors hq
    refine hs.admits _ hdown ((hqAbs.trans hparentAbs).trans habs) ?_
    rw [← hnames]
    exact (hparentNames ▸ hqNames).trans (List.dropLast_prefix _)
  · rw [Path.location_join hrel hdown]
    exact hs.stage.append _

/-- Files are staged one by one. -/
theorem Holds.stageFiles (hs : s.Holds cwd target) {files : List Emitted}
    (hfiles : ∀ e ∈ files, (⟨e.path⟩ : Path).isPlain = true) :
    s.Confines cwd (Output.stageFiles (Output.stagingDir target) files) := by
  induction files with
  | nil => exact confines_of_disk_eq fun m => rfl
  | cons e files ih =>
    obtain ⟨he, hrest⟩ := List.forall_mem_cons.1 hfiles
    exact (hs.stageFile he).bind fun _ => ih hrest

/-- Filling a stage touches only a scope that has room for it. -/
theorem Holds.fill (hs : s.Holds cwd target) {files : List Emitted}
    (hfiles : ∀ e ∈ files, (⟨e.path⟩ : Path).isPlain = true) : s.Confines cwd (Output.fill target files) :=
  hs.openStage.bind fun _ => (hs.stageFiles hfiles).discarding hs.stage

/-- Moving a stage to its place touches only a scope that has both. -/
theorem Holds.commit (hs : s.Holds cwd target) (hplace : s.Inside (target.location cwd)) :
    s.Confines cwd (Output.commit target) :=
  ((confines_clear hplace _).bind fun _ => confines_rename hs.stage hplace _).discarding hs.stage

/-- Replacing the directories of a layout touches them and their staging directories. -/
theorem confines_replace {l : Layout} {publics privates : List Emitted} (hpublic : s.Holds cwd l.publicDir)
    (hprivate : s.Holds cwd l.privateDir) (hplace : s.Inside (l.publicDir.location cwd))
    (hplace' : s.Inside (l.privateDir.location cwd)) (hpublics : ∀ e ∈ publics, (⟨e.path⟩ : Path).isPlain = true)
    (hprivates : ∀ e ∈ privates, (⟨e.path⟩ : Path).isPlain = true) : s.Confines cwd (Output.replace l publics privates) := by
  unfold Output.replace
  split
  · refine (hpublic.fill fun e he => ?_).bind fun _ => hpublic.commit hplace
    exact (List.mem_append.1 he).elim (hpublics e) (hprivates e)
  · split
    · exact (hpublic.fill hpublics).bind fun _ => (hpublic.commit hplace).bind fun _ => confines_clear hplace' _
    · exact (hpublic.fill hpublics).bind fun _ => ((hprivate.fill hprivates).discarding hpublic.stage).bind fun _ =>
        ((hpublic.commit hplace).discarding hprivate.stage).bind fun _ => hprivate.commit hplace'

end Scope

/-! ## Where the directories of a layout are -/

/-- A path goes on from another one by names, of which none leads up. -/
def Path.GoesOn (root p : Path) : Prop :=
  p.isAbsolute = root.isAbsolute ∧ ∃ rest, rest ≠ [] ∧ ".." ∉ rest ∧ p.names = root.names ++ rest

namespace Path

variable {root p : Path}

/-- A path that goes on from another one leads strictly below it. -/
theorem GoesOn.exists_location_eq (h : GoesOn root p) (cwd : Location) :
    ∃ rest, rest ≠ [] ∧ p.location cwd = root.location cwd ++ rest := by
  obtain ⟨habs, rest, hne, hdown, hnames⟩ := h
  refine ⟨rest, hne, ?_⟩
  rw [location, hnames, List.foldl_append, foldl_climb_of_down hdown, start, habs]
  rfl

/-- A path that goes on from another one has a last name. -/
theorem GoesOn.exists_name (h : GoesOn root p) : ∃ before name, p.names = before ++ [name] ∧ name ≠ ".." := by
  obtain ⟨-, rest, hne, hdown, hnames⟩ := h
  rcases List.eq_nil_or_concat' rest with rfl | ⟨before, name, rfl⟩
  · exact absurd rfl hne
  · refine ⟨root.names ++ before, name, by rw [hnames, List.append_assoc], ?_⟩
    rintro rfl
    exact hdown (by simp)

/-- A path that continues another one by plain segments goes on from it. -/
theorem Continues.goesOn (h : root.Continues p) : GoesOn root p := by
  obtain ⟨rest, hne, hcomponents⟩ := h
  obtain ⟨hnames, hdown, habs⟩ := of_components_eq hcomponents
  refine ⟨?_, rest, hne, hdown, ?_⟩
  · rw [Bool.eq_iff_iff, habs, root_mem_components_iff]
  · rw [hnames, filterMap_components]

end Path

namespace Layout

variable {mod : Module} {out : Path} {extra : Option Path} {l : Layout}

/-- The directories of an accepted layout are below the output directories. -/
theorem goesOn_of_resolve (h : resolve mod out extra = .ok l) :
    Path.GoesOn out l.publicDir ∧ Path.GoesOn (extra.getD out) l.privateDir := by
  obtain ⟨hpublic, hprivate⟩ := continues_of_resolve h
  exact ⟨hpublic.goesOn, hprivate.goesOn⟩

/-- The location of the staging directory next to a location: a dot is put in front of its name, and an ending behind it. -/
def stageBeside (l : Location) : Location :=
  l.dropLast ++ (l.getLast?.map fun name => "." ++ name ++ ".staging").toList

/-- What writing the output may touch: the two directories of a layout and their staging directories. -/
def scope (l : Layout) (cwd : Location) : Scope where
  places := [l.publicDir.location cwd, stageBeside (l.publicDir.location cwd),
    l.privateDir.location cwd, stageBeside (l.privateDir.location cwd)]
  way := fun x => l.publicDir.Passes cwd x ∨ l.privateDir.Passes cwd x

/-- The staging directory of a path that has a last name is beside it. -/
theorem location_stagingDir_eq {p : Path} {before : List String} {name : String} (h : p.names = before ++ [name])
    (hne : name ≠ "..") (cwd : Location) : (Output.stagingDir p).location cwd = stageBeside (p.location cwd) := by
  have hlast : (p.location cwd).getLast? = some name := by
    rw [Path.location, h, List.foldl_concat, climb, if_neg hne, List.getLast?_concat]
  rw [Output.location_stagingDir h hne, stageBeside, hlast]
  rfl

/-- A scope that holds what is beside a directory, and the way to it, has room for its staging directory. -/
theorem holds_of_stageBeside {s : Scope} {p : Path} {cwd : Location}
    (hnamed : ∃ before name, p.names = before ++ [name] ∧ name ≠ "..") (hstage : stageBeside (p.location cwd) ∈ s.places)
    (hway : ∀ x, p.Enters cwd x → s.way x) : s.Holds cwd p := by
  refine ⟨hnamed, ?_, hway⟩
  obtain ⟨before, name, hnames, hne⟩ := hnamed
  rw [location_stagingDir_eq hnames hne]
  exact ⟨_, hstage, List.prefix_rfl⟩

/-- The scope of an accepted layout has room for the staging directories of both directories. -/
theorem holds_scope (h : resolve mod out extra = .ok l) (cwd : Location) :
    (l.scope cwd).Holds cwd l.publicDir ∧ (l.scope cwd).Holds cwd l.privateDir := by
  obtain ⟨hpublic, hprivate⟩ := goesOn_of_resolve h
  constructor
  · exact holds_of_stageBeside hpublic.exists_name (by simp [scope]) fun x hx => Or.inl hx.passes
  · exact holds_of_stageBeside hprivate.exists_name (by simp [scope]) fun x hx => Or.inr hx.passes

end Layout

namespace Output

/-- After the directories are replaced the disk is left as it is. -/
theorem confines_advise (s : Scope) (cwd : Location) (l : Layout) (before : Bool) : s.Confines cwd (advise l before) := by
  refine Scope.confines_of_disk_eq fun m => ?_
  obtain ⟨m', hadvise, hdisk⟩ := exists_perform_advise l before m
  rw [hadvise]
  exact hdisk

/-- Writing the output for an accepted layout touches only its scope, whatever comes of it. -/
theorem confines_produce {set : ArtifactSet} {mod : Module} {out : Path} {extra : Option Path} {l : Layout}
    (h : Layout.resolve mod out extra = .ok l) (cwd : Location) : (l.scope cwd).Confines cwd (produce set mod out extra) := by
  obtain ⟨hpublic, hprivate⟩ := Layout.holds_scope h cwd
  intro m hcwd
  rw [produce, perform_bind, perform_except, h]
  refine Scope.Confines.bind (s := l.scope cwd) (Scope.confines_of_disk_eq fun m => rfl) (fun before => ?_) m hcwd
  cases hcheck : checkPaths set.emitted with
  | error e => exact Scope.confines_of_disk_eq fun m => rfl
  | ok u =>
    have hplain := checkPaths_eq_ok hcheck
    refine (Scope.confines_of_disk_eq fun m => rfl).bind fun _ => ?_
    refine (Scope.confines_replace hpublic hprivate ⟨_, by simp [Layout.scope], List.prefix_rfl⟩
      ⟨_, by simp [Layout.scope], List.prefix_rfl⟩ (fun e he => hplain e (List.mem_filter.1 he).1)
      fun e he => hplain e (List.mem_filter.1 he).1).bind fun _ => ?_
    refine (confines_advise (l.scope cwd) cwd l before).bind fun _ => ?_
    exact Scope.confines_of_disk_eq fun m => rfl

end Output

/-- Whether or not a run that writes the output succeeds, it spares all that is not in the two directories of the layout or their
staging directories, but for missing directories on the way; these directories are strictly below the output directories,
whatever the texts they are given as. Where the layout is rejected nothing is changed. -/
theorem produce_spares_rest (set : ArtifactSet) (mod : Module) (out : Path) (extra : Option Path) (m : Machine) :
    match Layout.resolve mod out extra with
    | .error e => perform (Output.produce set mod out extra) m = (.error e, m)
    | .ok l =>
      (l.scope m.disk.cwd).Spares m.disk (perform (Output.produce set mod out extra) m).2.disk ∧
        (∃ rest, rest ≠ [] ∧ l.publicDir.location m.disk.cwd = out.location m.disk.cwd ++ rest) ∧
        ∃ rest, rest ≠ [] ∧ l.privateDir.location m.disk.cwd = (extra.getD out).location m.disk.cwd ++ rest := by
  cases h : Layout.resolve mod out extra with
  | error e =>
    dsimp only
    rw [Output.produce, perform_bind, perform_except, h]
  | ok l =>
    obtain ⟨hpublic, hprivate⟩ := Layout.goesOn_of_resolve h
    exact ⟨(Output.confines_produce h m.disk.cwd m rfl).spared, hpublic.exists_location_eq _, hprivate.exists_location_eq _⟩

end DeferredBinding
