import DeferredBinding.Proofs.Deploy.Layout
import DeferredBinding.Proofs.Disk.Files

/-!
# What staging leaves

Files that are written in order leave at each location the bytes of the last file of that location, directories around the files,
and nothing else (`contents`). Staging one more file adds it to what is there (`view_of_stageFile`), so a stage that was filled
holds exactly its files (`view_of_fill`), and a commit puts that in the place of the target and leaves no stage
(`commit_eq_ok`).
-/

namespace DeferredBinding

open Disk

/-! ## Files written in order -/

/-- Where a file is written, below the directory of its kind. -/
def Emitted.location (e : Emitted) : Location :=
  (⟨e.path⟩ : Path).names

/-- What files that are written in order leave at a location: the bytes of the last one that is written there, or a directory
around one, or nothing. The directory they are written to is there in any case. -/
def contents (files : List Emitted) (l : Location) : Option Node.Kind :=
  match files.reverse.find? fun e => e.location = l with
  | some e => some (.file e.contents)
  | none => if l = [] ∨ ∃ e ∈ files, l <+: e.location then some .directory else none

/-- One more file is seen at its location, and its directories where nothing was. -/
theorem contents_concat (files : List Emitted) (e : Emitted) (l : Location) :
    contents (files ++ [e]) l =
      if l = e.location then some (.file e.contents)
      else (contents files l).or (if l <+: e.location then some .directory else none) := by
  unfold contents
  rw [List.reverse_append, List.reverse_singleton, List.singleton_append, List.find?_cons]
  by_cases hl : l = e.location
  · simp [hl]
  · have hne : ¬e.location = l := fun h => hl h.symm
    simp only [hne, hl, decide_false, if_false]
    cases files.reverse.find? fun e => e.location = l with
    | some first => rfl
    | none =>
      simp only [List.mem_append, List.mem_singleton, or_and_right, exists_or, exists_eq_left, ← or_assoc]
      by_cases hold : l = [] ∨ ∃ e ∈ files, l <+: e.location
      · simp [hold]
      · simp [hold]

/-! ## Making directories -/

/-- Directories are made on the way to a location, where nothing was, and nothing else is changed. -/
def Opens (target : Location) (d d' : Disk) : Prop :=
  ∀ l, d'.root.view l = d.root.view l ∨ d.root.view l = none ∧ d'.root.view l = some .directory ∧ l <+: target

variable {d d' d'' : Disk} {m m' : Machine} {p : Path} {name : String} {target : Location}

theorem Opens.refl (target : Location) (d : Disk) : Opens target d d :=
  fun _ => Or.inl rfl

theorem Opens.trans (h : Opens target d d') (h' : Opens target d' d'') : Opens target d d'' := by
  intro l
  rcases h' l with heq | ⟨hnone, hdir, hpre⟩
  · rw [heq]
    exact h l
  · rcases h l with heq | ⟨_, hdir', _⟩
    · exact Or.inr ⟨heq.symm.trans hnone, hdir, hpre⟩
    · rw [hnone] at hdir'
      nomatch hdir'

/-- Making one directory. -/
theorem opens_update_empty {l : Location} (h : d.root.at? l = none) (hl : l <+: target) :
    Opens target d (d.update l (some .empty)) := by
  intro l'
  rcases view_update_empty h l' with heq | ⟨hnone, hdir, rfl⟩
  · exact Or.inl heq
  · exact Or.inr ⟨hnone, hdir, hl⟩

/-- Making the directories on the way to a path. -/
theorem opens_makeDirectories {r : Except Refusal Unit} (hlevel : IsLevel p.names)
    (h : (Host.makeDirectories p : StateM Machine (Except Refusal Unit)).run m = (r, m')) :
    Opens (p.location m.disk.cwd) m.disk m'.disk ∧ m'.disk.cwd = m.disk.cwd := by
  refine makeDirectoriesOf_induction (.refl _) .trans (fun q hq d d' hcwd hmake => ?_) h
  obtain ⟨habs, hpre⟩ := Path.of_mem_ancestors hq
  obtain ⟨spot, last, hwalk, hlast, -, hnone, rfl⟩ := makeDirectory_eq_ok hmake
  obtain ⟨hnames, hne⟩ := names_of_walk hwalk hlast
  refine opens_update_empty hnone ?_
  rw [hcwd]
  exact Path.location_isPrefix hlevel habs hpre hnames hne _

namespace Output

/-- What clearing a path makes of the disk. -/
theorem disk_of_clear {r : Except Refusal Unit} (h : (Host.clear p : StateM Machine (Except Refusal Unit)).run m = (r, m')) :
    m'.disk = (m.disk.removeTree p).2 := by
  obtain ⟨r₁, m₁, hrun, hdisk⟩ := exists_run_clear m p
  obtain ⟨-, rfl⟩ := Prod.mk.inj (hrun.symm.trans h)
  exact hdisk

/-! ## One file -/

/-- What writing a file into a stage does: the directory that it is in is made, and the file is written. -/
theorem stageFile_eq_ok {e : Emitted} (h : perform (stageFile p e) m = (.ok (), m')) :
    ∃ m₁ : Machine, m₁.disk.write (p.join e.path) e.contents = .ok m'.disk ∧
      ((p.join e.path).parent? = none ∧ m₁ = m ∨ ∃ parent, (p.join e.path).parent? = some parent ∧
        (Host.makeDirectories parent : StateM Machine (Except Refusal Unit)).run m = (.ok (), m₁)) := by
  have hwrite : ∀ {s : Machine}, perform (do
      onDisk (p.join e.path) (Host.write (p.join e.path) e.contents)
      (Host.log ⟨.debug, origin, "Staged " ++ e.path ++ " from " ++ e.producer⟩ : StateM Machine Unit)) s = (.ok (), m') →
      s.disk.write (p.join e.path) e.contents = .ok m'.disk := by
    intro s hs
    obtain ⟨_, s', hx, hlog⟩ := perform_bind_ok hs
    have hdone := disk_of_run_change (f := (·.write (p.join e.path) e.contents)) (run_of_onDisk_ok hx)
    obtain ⟨-, rfl⟩ := Prod.mk.inj hlog
    exact hdone
  unfold stageFile at h
  dsimp only at h
  split at h
  · rename_i parent hparent
    obtain ⟨_, m₁, hx, hrest⟩ := perform_bind_ok h
    exact ⟨m₁, hwrite hrest, Or.inr ⟨parent, hparent, run_of_onDisk_ok hx⟩⟩
  · rename_i hparent
    exact ⟨m, hwrite h, Or.inl ⟨hparent, rfl⟩⟩

/-- A file that was staged, and what was there when it was written: its directory, and no directory in its place. -/
theorem exists_opened {e : Emitted} (hp : p.Descends name) (he : (⟨e.path⟩ : Path).isPlain = true)
    (hstart : m.disk.DirAt (p.start m.disk.cwd)) (h : perform (stageFile p e) m = (.ok (), m')) :
    ∃ (d : Disk) (before : Location) (last : String),
      (p.join e.path).location m.disk.cwd = before ++ [last] ∧ Opens before m.disk d ∧ d.DirAt before ∧
        ¬d.DirAt (before ++ [last]) ∧ m'.disk = d.update (before ++ [last]) (some (.file e.contents)) := by
  obtain ⟨hrel, hdown⟩ := Path.isPlain_spec he
  obtain ⟨m₁, hwrite, hparent⟩ := stageFile_eq_ok h
  obtain ⟨spot, last, hwalk, hlast, hslash, -⟩ := exists_spot_of_write hwrite
  obtain ⟨hnone, hdisk⟩ := write_eq_ok hwrite
  have hends := endsIn_of_walk hwalk hlast hslash
  have hlevel : IsLevel (p.join e.path).names := by
    rw [Path.names_join p hrel]
    exact hp.level.append hdown
  obtain ⟨parent, hparent⟩ : ∃ parent, (p.join e.path).parent? = some parent ∧
      (Host.makeDirectories parent : StateM Machine (Except Refusal Unit)).run m = (.ok (), m₁) := by
    rcases hparent with ⟨hno, -⟩ | hparent
    · obtain ⟨q, hq⟩ := Path.exists_parent? (p := p.join e.path) (by rw [hends.names_eq]; simp)
      rw [hno] at hq
      nomatch hq
    · exact hparent
  obtain ⟨habs, hnames⟩ := Path.parent?_eq_some hparent.1
  have hparentLevel : IsLevel parent.names := by
    rw [hends.names_eq] at hlevel
    rw [hnames]
    exact hlevel.of_append
  have hloc : ∀ cwd, (p.join e.path).location cwd = parent.location cwd ++ [last] := by
    intro cwd
    rw [hends.location_eq_concat, ← hnames, Path.location, Path.start, Path.start, habs]
  obtain ⟨hopens, hcwd⟩ := opens_makeDirectories hparentLevel hparent.2
  have hgrows := grows_root_makeDirectories hparent.2
  have hground : m₁.disk.DirAt (ground ((p.join e.path).start m₁.disk.cwd) (p.join e.path).names) := by
    refine hgrows.all _ (hstart.of_isPrefix ?_)
    have hsame : (p.join e.path).start m₁.disk.cwd = p.start m.disk.cwd := by
      rw [Path.start, Path.start, Path.isAbsolute_join p hrel, hcwd]
    rw [hsame]
    exact ground_isPrefix _ _
  have hdir := dirAt_of_walk hlevel hwalk hlast hground
  have hspot := walk_eq_of_endsIn hends hwalk
  rw [hspot, hcwd, hloc, List.dropLast_concat] at hdir
  rw [hcwd, hloc] at hnone hdisk
  exact ⟨m₁.disk, _, last, hloc _, hopens, hdir, hnone, hdisk⟩

/-- Staging a file adds it to what a stage holds. -/
theorem view_of_stageFile {e : Emitted} {files : List Emitted} (hp : p.Descends name)
    (he : (⟨e.path⟩ : Path).isPlain = true) (hstart : m.disk.DirAt (p.start m.disk.cwd))
    (hview : ∀ l, m.disk.root.view (p.location m.disk.cwd ++ l) = contents files l)
    (h : perform (stageFile p e) m = (.ok (), m')) (l : Location) :
    m'.disk.root.view (p.location m.disk.cwd ++ l) = contents (files ++ [e]) l := by
  obtain ⟨hrel, hdown⟩ := Path.isPlain_spec he
  obtain ⟨d, before, last, hloc, hopens, hdir, hnone, hdisk⟩ := exists_opened hp he hstart h
  rw [Path.location_join hrel hdown] at hloc
  generalize p.location m.disk.cwd = place at hview hloc
  change place ++ e.location = before ++ [last] at hloc
  rw [hdisk, contents_concat, ← hview]
  have hopen := hopens (place ++ l)
  by_cases hbelow : e.location <+: l
  · obtain ⟨rest, rfl⟩ := hbelow
    rw [← List.append_assoc, hloc] at hopen ⊢
    rw [update, Node.view_set_append hdir]
    cases rest with
    | nil =>
      rw [List.append_nil, if_pos rfl]
      rfl
    | cons first rest =>
      -- there was no directory in the place of the file, so nothing was below it
      have hempty := Node.view_append_of_not_isDirAt hnone (List.cons_ne_nil first rest)
      rw [hempty] at hopen
      have hbefore : m.disk.root.view (before ++ [last] ++ first :: rest) = none := by
        rcases hopen with hsame | ⟨hnone, -⟩
        · exact hsame.symm
        · exact hnone
      have hne : e.location ++ first :: rest ≠ e.location := by simp
      have hout : ¬e.location ++ first :: rest <+: e.location := by
        intro hpre
        have hlen := hpre.length_le
        rw [List.length_append, List.length_cons] at hlen
        omega
      rw [hbefore, if_neg hne, if_neg hout]
      rfl
  · have hapart : ¬before ++ [last] <+: place ++ l := by
      rw [← hloc, List.prefix_append_right_inj]
      exact hbelow
    have hne : l ≠ e.location := fun heq => hbelow (heq ▸ List.prefix_rfl)
    have hinside : place ++ l <+: before ↔ l <+: e.location := by
      have hpre : place ++ l <+: place ++ e.location ↔ l <+: e.location := List.prefix_append_right_inj place
      rw [hloc, List.prefix_concat_iff, ← hloc, List.append_cancel_left_eq, or_iff_right hne] at hpre
      exact hpre
    rw [update, Node.view_set_of_not_isPrefix _ _ hapart, if_neg hne]
    by_cases hpre : l <+: e.location
    · have hseen := (Node.isDirAt_iff_view _ _).1 (hdir.of_isPrefix (hinside.2 hpre))
      rw [if_pos hpre, hseen]
      rcases hopen with hsame | ⟨hno, -⟩
      · rw [← hsame, hseen]
        rfl
      · rw [hno]
        rfl
    · rw [if_neg hpre, Option.or_none]
      rcases hopen with hsame | ⟨-, -, hin⟩
      · exact hsame
      · exact absurd (hinside.1 hin) hpre

/-! ## A whole stage -/

/-- Staging files in order adds all of them to what a stage holds. -/
theorem view_of_stageFiles {done files : List Emitted} (hp : p.Descends name)
    (hfiles : ∀ e ∈ files, (⟨e.path⟩ : Path).isPlain = true) (hstart : m.disk.DirAt (p.start m.disk.cwd))
    (hview : ∀ l, m.disk.root.view (p.location m.disk.cwd ++ l) = contents done l)
    (h : perform (stageFiles p files) m = (.ok (), m')) (l : Location) :
    m'.disk.root.view (p.location m.disk.cwd ++ l) = contents (done ++ files) l := by
  induction files generalizing m done with
  | nil =>
    obtain ⟨-, rfl⟩ := Prod.mk.inj h
    rw [List.append_nil]
    exact hview l
  | cons e files ih =>
    have he := hfiles e List.mem_cons_self
    obtain ⟨_, m₁, hfirst, hrest⟩ := perform_bind_ok h
    have hgrows := grows_stageFile hp he hfirst
    have hnext := view_of_stageFile hp he hstart hview hfirst
    have hstart₁ : m₁.disk.DirAt (p.start m₁.disk.cwd) := by
      rw [hgrows.cwd]
      exact hgrows.all _ hstart
    rw [← hgrows.cwd] at hnext
    have hthen := ih (fun e he => hfiles e (List.mem_cons_of_mem _ he)) hstart₁ hnext hrest
    rw [hgrows.cwd, List.append_assoc] at hthen
    exact hthen

/-- Where a directory is removed nothing is left. -/
theorem at?_of_removeTree (hp : p.EndsIn name) (h : d.isDirectory p = true) :
    (d.removeTree p).2.root.at? (p.location d.cwd) = none := by
  have hat := ((isDirectory_iff hp).1 h).2
  have hgone := at?_update_concat (hat.of_isPrefix (List.dropLast_prefix _)) name none
  rw [← hp.location_eq] at hgone
  rw [removeTree_of_isDirectory hp h]
  exact hgone

/-- Where a directory is made nothing was. -/
theorem at?_of_opens (hp : p.Descends name) (hcwd : d'.cwd = d.cwd) (hopens : Opens (p.location d.cwd) d d')
    (hbefore : d.isDirectory p = false) (hafter : d'.isDirectory p = true) : d.root.at? (p.location d.cwd) = none := by
  obtain ⟨hreach, hfound⟩ := (isDirectory_iff hp.ends).1 hafter
  rw [hcwd] at hfound
  refine Option.eq_none_iff_forall_ne_some.2 fun node hnode => ?_
  cases node with
  | file bytes =>
    have hfile : d.root.view (p.location d.cwd) = some (.file bytes) := by
      unfold Node.view
      rw [hnode]
      rfl
    rcases hopens (p.location d.cwd) with hsame | ⟨hno, -⟩
    · rw [(Node.isDirAt_iff_view _ _).1 hfound, hfile] at hsame
      cases hsame
    · rw [hfile] at hno
      cases hno
  | directory es =>
    -- the path leads to the directory in the end, so it did before
    have hat : d.DirAt (p.location d.cwd) := ⟨es, hnode⟩
    have hreached := hreach.mono hp hcwd.symm fun l hl _ => hat.of_isPrefix ((hcwd ▸ hl).trans (List.dropLast_prefix _))
    rw [(isDirectory_iff hp.ends).2 ⟨hreached, hat⟩] at hbefore
    cases hbefore

/-- A stage that was opened is an empty directory. -/
theorem view_of_openStage (hp : p.Descends name) (hstart : m.disk.DirAt (p.start m.disk.cwd))
    (h : perform (openStage p) m = (.ok (), m')) (l : Location) :
    m'.disk.root.view (p.location m.disk.cwd ++ l) = contents [] l := by
  have hground : m.disk.Grounded p := hstart.of_isPrefix (ground_isPrefix _ _)
  obtain ⟨hconf, hdir⟩ := openStage_spec hp h
  have hthere := hdir hground rfl
  have hfound := ((isDirectory_iff hp.ends).1 hthere).2
  rw [hconf.cwd] at hfound
  obtain ⟨_, m₁, hclear, hmake⟩ := perform_bind_ok h
  have hdisk := disk_of_clear (run_of_onDisk_ok hclear)
  obtain ⟨hopens, hcwd⟩ := opens_makeDirectories hp.level (run_of_onDisk_ok hmake)
  have hcwd₁ : m₁.disk.cwd = m.disk.cwd := hcwd.symm.trans hconf.cwd
  rw [hcwd₁] at hopens
  have hnone : m₁.disk.root.at? (p.location m.disk.cwd) = none := by
    cases hbefore : m.disk.isDirectory p with
    | true =>
      rw [hdisk]
      exact at?_of_removeTree hp.ends hbefore
    | false =>
      obtain ⟨e, he⟩ := removeTree_of_not_isDirectory hbefore
      rw [he] at hdisk
      rw [hdisk] at hopens ⊢
      exact at?_of_opens hp hconf.cwd hopens hbefore hthere
  cases l with
  | nil =>
    rw [List.append_nil]
    exact (Node.isDirAt_iff_view _ _).1 hfound
  | cons first rest =>
    have hbelow : m₁.disk.root.view (p.location m.disk.cwd ++ first :: rest) = none := by
      unfold Node.view
      rw [Node.at?_append, hnone]
      rfl
    have hno : contents [] (first :: rest) = none := by simp [contents]
    rw [hno]
    rcases hopens (p.location m.disk.cwd ++ first :: rest) with hsame | ⟨-, -, hpre⟩
    · exact hsame.trans hbelow
    · have hlen := hpre.length_le
      rw [List.length_append, List.length_cons] at hlen
      omega

/-- A staging directory is given from the start of its target. -/
theorem start_stagingDir (hp : p.Descends name) (cwd : Location) : (stagingDir p).start cwd = p.start cwd := by
  rw [Path.start, Path.start, (names_stagingDir hp.ends.names_eq hp.ends.2.2).1]

/-- What a path leads to that does not lead up is below its start. -/
theorem start_isPrefix (hp : p.Descends name) (hdown : ".." ∉ p.names) (cwd : Location) :
    p.start cwd <+: (p.location cwd).dropLast := by
  rw [Path.location, foldl_climb_of_down hdown, hp.ends.names_eq, ← List.append_assoc, List.dropLast_concat]
  exact List.prefix_append _ _

/-- A staging directory that was filled holds exactly the files that were staged. -/
theorem view_of_fill {files : List Emitted} (hp : p.Descends name) (hdown : ".." ∉ p.names)
    (hfiles : ∀ e ∈ files, (⟨e.path⟩ : Path).isPlain = true) (hstart : m.disk.DirAt (p.start m.disk.cwd))
    (h : perform (fill p files) m = (.ok (), m')) (l : Location) :
    m'.disk.root.view ((stagingDir p).location m.disk.cwd ++ l) = contents files l := by
  have hstage := (stagingDir_spec hp).1
  rw [← start_stagingDir hp] at hstart
  obtain ⟨_, m₁, hopen, hrest⟩ := perform_bind_ok h
  have hempty := view_of_openStage hstage hstart hopen
  have hconf := (openStage_spec hstage hopen).1
  have hstart₁ : m₁.disk.DirAt ((stagingDir p).start m₁.disk.cwd) := by
    rw [hconf.cwd]
    refine hconf.dirs _ (List.forall_mem_singleton.2 fun hpre => ?_) hstart
    rw [start_stagingDir hp] at hpre
    exact not_prefix_of_stagingDir hp _ (hpre.trans (start_isPrefix hp hdown _))
  rw [← hconf.cwd] at hempty ⊢
  exact view_of_stageFiles hstage hfiles hstart₁ hempty (perform_of_discarding_ok hrest) l

/-! ## Commits -/

/-- A staging directory that was renamed to its target is gone. -/
theorem at?_of_rename (hp : p.Descends name) (h : d.rename (stagingDir p) p = .ok d') :
    d'.root.at? ((stagingDir p).location d.cwd) = none := by
  have hstage := (stagingDir_spec hp).1
  have hapart := apart_stagingDir hp d.cwd
  obtain ⟨node, htree, -, rfl⟩ := rename_eq_ok hstage.ends hp.ends hapart.1 h
  have hat := ((tree_eq_some_iff hstage.ends).1 htree).2
  rw [hstage.ends.location_eq] at hat
  have hgone := at?_update_concat (Node.isDirAt_of_at?_append hat) (stageName name) none
  rw [← hstage.ends.location_eq] at hgone
  rw [update, Node.at?_set_of_apart _ _ hapart.2 hapart.1]
  exact hgone

/-- What a successful commit does to a disk: the target is cleared, and the staging directory renamed to it. -/
theorem exists_rename_of_commit (h : perform (commit p) m = (.ok (), m')) :
    (m.disk.removeTree p).2.rename (stagingDir p) p = .ok m'.disk := by
  obtain ⟨_, m₂, hclear, hrename⟩ := perform_bind_ok (perform_of_discarding_ok h)
  rw [← disk_of_clear (run_of_onDisk_ok hclear)]
  exact disk_of_run_change (f := (·.rename (stagingDir p) p)) (run_of_onDisk_ok hrename)

/-- A successful commit swaps a target for its staging directory, which is gone then. -/
theorem commit_eq_ok (hp : p.Descends name) (h : perform (commit p) m = (.ok (), m')) :
    Swapped p m.disk m'.disk ∧ m'.disk.root.at? ((stagingDir p).location m.disk.cwd) = none := by
  have hrename := exists_rename_of_commit h
  have hconf := confined_removeTree hp.ends m.disk
  have hgone := at?_of_rename hp hrename
  rw [hconf.cwd] at hgone
  exact ⟨swapped_of_rename hp hconf hrename, hgone⟩

end Output

end DeferredBinding
