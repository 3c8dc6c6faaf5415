import DeferredBinding.Proofs.Deploy.Contents
import DeferredBinding.Proofs.Deploy.Failure

/-!
# What a successful deployment leaves

After a deployment that succeeds, the directories of its layout hold exactly the files of their kinds, whatever was there before,
and no staging directory is left (`produce_materializes`). This is for output directories of plain segments, with one exception:
where the public directory is inside the staging directory of the private one (`Layout.Swallowed`), staging the private files
removes what was staged for the public directory, and even if the deployment succeeds there is no public directory in the end
(`cuckoo_public_lost`).
-/

namespace DeferredBinding

open Disk

/-- The files of a set for the public directory. -/
def ArtifactSet.publics (s : ArtifactSet) : List Emitted :=
  s.emitted.filter (·.isPublic)

/-- The files of a set for the private directory. -/
def ArtifactSet.privates (s : ArtifactSet) : List Emitted :=
  s.emitted.filter fun e => !e.isPublic

/-- At a path there is a directory that holds what files leave that are written in order, and nothing else. -/
def Disk.HoldsAt (d : Disk) (p : Path) (files : List Emitted) : Prop :=
  ∃ node, d.tree p = some node ∧ ∀ l, node.view l = contents files l

/-- The public directory is inside the staging directory of the private one, and private files are staged there. -/
def Layout.Swallowed (l : Layout) (privates : List Emitted) (cwd : Location) : Prop :=
  privates ≠ [] ∧ (Output.stagingDir l.privateDir).location cwd <+: l.publicDir.location cwd

instance (l : Layout) (privates : List Emitted) (cwd : Location) : Decidable (l.Swallowed privates cwd) :=
  inferInstanceAs (Decidable (_ ∧ _))

namespace Output

variable {d d' : Disk} {m m' : Machine} {p : Path} {name name' : String} {files : List Emitted}

/-! ## One directory -/

/-- What a path leads to is kept by changes elsewhere. -/
theorem holdsAt_of_confined {places : List Location} (h : d.HoldsAt p files) (hp : p.Descends name)
    (hconf : Confined places d d') (hapart : ∀ s ∈ places, Apart s (p.location d.cwd)) : d'.HoldsAt p files := by
  unfold HoldsAt
  rw [hconf.tree_eq hp hapart]
  exact h

/-- A path to a location where nothing is leads nowhere. -/
theorem tree_eq_none (hp : p.EndsIn name) (h : d.root.at? (p.location d.cwd) = none) : d.tree p = none := by
  refine Option.eq_none_iff_forall_ne_some.2 fun node hnode => ?_
  rw [((tree_eq_some_iff hp).1 hnode).2] at h
  nomatch h

/-- A target whose staging directory is filled. -/
theorem holdsAt_of_fill (hp : p.Descends name) (hdown : ".." ∉ p.names)
    (hfiles : ∀ e ∈ files, (⟨e.path⟩ : Path).isPlain = true) (hstart : m.disk.DirAt (p.start m.disk.cwd))
    (h : perform (fill p files) m = (.ok (), m')) : m'.disk.HoldsAt (stagingDir p) files := by
  have hstage := (stagingDir_spec hp).1
  obtain ⟨hconf, hdir⟩ := fill_spec hp hfiles h
  have hground : m.disk.Grounded (stagingDir p) := by
    unfold Grounded
    rw [start_stagingDir hp]
    exact hstart.of_isPrefix (ground_isPrefix _ _)
  obtain ⟨es, htree⟩ := isDirectory_iff_tree.1 (hdir hground rfl)
  have hat := ((tree_eq_some_iff hstage.ends).1 htree).2
  rw [hconf.cwd] at hat
  refine ⟨_, htree, fun l => ?_⟩
  rw [← view_of_fill hp hdown hfiles hstart h]
  unfold Node.view
  rw [Node.at?_append, hat]
  rfl

/-- Filling the stage of a target leaves the start of its path. -/
theorem dirAt_start_of_fill (hp : p.Descends name) (hdown : ".." ∉ p.names)
    (hfiles : ∀ e ∈ files, (⟨e.path⟩ : Path).isPlain = true) (hstart : m.disk.DirAt (p.start m.disk.cwd))
    {r : Except LinkError Unit} (h : perform (fill p files) m = (r, m')) : m'.disk.DirAt (p.start m.disk.cwd) := by
  refine (fill_spec hp hfiles h).1.dirs _ (List.forall_mem_singleton.2 fun hpre => ?_) hstart
  exact not_prefix_of_stagingDir hp _ (hpre.trans (start_isPrefix hp hdown _))

/-- A commit puts what is staged in the place of its target. -/
theorem holdsAt_of_commit (hp : p.Descends name) (hstaged : m.disk.HoldsAt (stagingDir p) files)
    (h : perform (commit p) m = (.ok (), m')) : m'.disk.HoldsAt p files := by
  obtain ⟨⟨-, node, htree, hfound⟩, -⟩ := commit_eq_ok hp h
  obtain ⟨node', htree', hview⟩ := hstaged
  obtain rfl := Option.some.inj (htree.symm.trans htree')
  exact ⟨node, hfound, hview⟩

/-- Where a path leads down to nothing is left after it is cleared. -/
theorem at?_of_clear (hp : p.EndsIn name) (hdown : ".." ∉ p.names)
    (h : (Host.clear p : StateM Machine (Except Refusal Unit)).run m = (.ok (), m')) :
    m'.disk.root.at? (p.location m.disk.cwd) = none := by
  rw [disk_of_clear h]
  cases hdir : m.disk.isDirectory p with
  | true => exact at?_of_removeTree hp hdir
  | false =>
    -- nothing else than nothing at all is cleared without a refusal
    obtain ⟨e, he⟩ := removeTree_of_not_isDirectory hdir
    rw [Host.clear, run_bind, run_removeTree, he] at h
    have hnone : e = .notFound := by
      cases e <;> first | rfl | cases h
    rw [he]
    refine at?_of_removeTree_notFound hp hdown ?_
    rw [he, hnone]

/-- Clearing a path that leads down leaves the files that are not at or below where it leads. -/
theorem file_of_clear (hp : p.EndsIn name) (hdown : ".." ∉ p.names)
    (h : (Host.clear p : StateM Machine (Except Refusal Unit)).run m = (.ok (), m')) (l : Location) (bytes : ByteArray) :
    m'.disk.root.at? l = some (.file bytes) ↔ m.disk.root.at? l = some (.file bytes) ∧ ¬p.location m.disk.cwd <+: l := by
  by_cases hin : p.location m.disk.cwd <+: l
  · obtain ⟨rest, rfl⟩ := hin
    rw [Node.at?_append, at?_of_clear hp hdown h]
    simp
  · have hview : m'.disk.root.view l = m.disk.root.view l := by
      rw [disk_of_clear h]
      cases hdir : m.disk.isDirectory p with
      | true =>
        rw [removeTree_of_isDirectory hp hdir]
        exact Node.view_set_of_not_isPrefix _ _ hin
      | false =>
        obtain ⟨e, he⟩ := removeTree_of_not_isDirectory hdir
        rw [he]
    rw [Node.at?_eq_file_iff_view, hview, ← Node.at?_eq_file_iff_view]
    exact (and_iff_left hin).symm

/-! ## Both directories -/

/-- What a successful deployment leaves of a layout. Directories that differ hold the files of their kinds, and a private
directory is there only for files; a shared one holds the private files written after the public ones. No staging directory that
was used is left. -/
structure Materialized (l : Layout) (publics privates : List Emitted) (d : Disk) : Prop where
  publicDir : l.shared = false → d.HoldsAt l.publicDir publics
  privateDir : l.shared = false → privates ≠ [] → d.HoldsAt l.privateDir privates
  noPrivateDir : l.shared = false → privates = [] → d.tree l.privateDir = none
  sharedDir : l.shared = true → d.HoldsAt l.publicDir (publics ++ privates)
  publicStage : d.tree (stagingDir l.publicDir) = none
  privateStage : privates ≠ [] → d.tree (stagingDir l.privateDir) = none

variable {l : Layout} {publics privates : List Emitted} {out : Path}

/-- Where the directories differ, a private one is there exactly for private files. -/
theorem Materialized.exists?_privateDir (h : Materialized l publics privates d) (hshared : l.shared = false) :
    d.exists? l.privateDir = !privates.isEmpty := by
  rw [exists?_eq_isSome_tree]
  cases privates with
  | nil =>
    rw [h.noPrivateDir hshared rfl]
    rfl
  | cons e privates =>
    obtain ⟨node, hnode, -⟩ := h.privateDir hshared (List.cons_ne_nil e privates)
    rw [hnode]
    rfl

/-- Replacing one directory for both kinds of file. -/
theorem materialized_shared (hl : l.Placed out name name') (hshared : l.shared = true)
    (hfiles : ∀ e ∈ publics ++ privates, (⟨e.path⟩ : Path).isPlain = true)
    (hstart : m.disk.DirAt (l.publicDir.start m.disk.cwd))
    (h : perform (replaceShared l.publicDir publics privates) m = (.ok (), m')) :
    Materialized l publics privates m'.disk := by
  have hp := hl.publicDir
  have hq := hl.privateDir
  obtain ⟨_, m₁, hfill, hcommit⟩ := perform_bind_ok h
  have hheld := holdsAt_of_commit hp (holdsAt_of_fill hp hl.publicStraight.not_mem_names hfiles hstart hfill) hcommit
  obtain ⟨⟨hconf, -⟩, hgone⟩ := commit_eq_ok hp hcommit
  rw [← hconf.cwd] at hgone
  have hsame := Path.location_eq_of_sameAs hshared m'.disk.cwd
  have hname : name = name' := by
    rw [hp.ends.location_eq, hq.ends.location_eq] at hsame
    exact List.singleton_inj.1 (List.append_inj' hsame rfl).2
  have hne : l.shared ≠ false := by simp [hshared]
  refine ⟨fun hno => absurd hno hne, fun hno => absurd hno hne, fun hno => absurd hno hne, fun _ => hheld, ?_, fun _ => ?_⟩
  · exact tree_eq_none (stagingDir_spec hp).1.ends hgone
  · refine tree_eq_none (stagingDir_spec hq).1.ends ?_
    rw [(stagingDir_spec hq).2, ← hsame, ← hname, ← (stagingDir_spec hp).2]
    exact hgone

/-- Replacing the public directory and removing the private one, which is apart from it. -/
theorem materialized_public (hp : l.publicDir.Descends name) (hq : l.privateDir.Descends name')
    (hdown : ".." ∉ l.publicDir.names) (hdown' : ".." ∉ l.privateDir.names) (hshared : l.shared = false)
    (hapart : Apart (l.publicDir.location m.disk.cwd) (l.privateDir.location m.disk.cwd))
    (hfiles : ∀ e ∈ publics, (⟨e.path⟩ : Path).isPlain = true) (hstart : m.disk.DirAt (l.publicDir.start m.disk.cwd))
    (h : perform (replacePublic l publics) m = (.ok (), m')) : Materialized l publics [] m'.disk := by
  obtain ⟨_, m₁, hfill, hrest⟩ := perform_bind_ok h
  obtain ⟨_, m₂, hcommit, hclear⟩ := perform_bind_ok hrest
  have hheld := holdsAt_of_commit hp (holdsAt_of_fill hp hdown hfiles hstart hfill) hcommit
  obtain ⟨⟨hconf, -⟩, hgone⟩ := commit_eq_ok hp hcommit
  rw [← hconf.cwd] at hgone
  rw [← (fill_spec hp hfiles hfill).1.cwd, ← hconf.cwd] at hapart
  have hrun := run_of_onDisk_ok hclear
  have hdisk := disk_of_clear hrun
  have hconf₃ := confined_removeTree hq.ends m₂.disk
  rw [← hdisk] at hconf₃
  refine ⟨fun _ => ?_, fun _ hne => absurd rfl hne, fun _ _ => ?_, fun hyes => absurd hyes (by simp [hshared]), ?_,
    fun hne => absurd rfl hne⟩
  · exact holdsAt_of_confined hheld hp hconf₃ (List.forall_mem_singleton.2 hapart.symm)
  · refine tree_eq_none hq.ends ?_
    rw [hconf₃.cwd]
    exact at?_of_clear hq.ends hdown' hrun
  · refine tree_eq_none (stagingDir_spec hp).1.ends ?_
    by_cases hin : (stagingDir l.publicDir).location m₂.disk.cwd <+: l.privateDir.location m₂.disk.cwd
    · -- the private directory is where the stage was, so there is none to be cleared
      have hno : m₂.disk.isDirectory l.privateDir = false := by
        rw [← Bool.not_eq_true, isDirectory_iff hq.ends]
        rintro ⟨-, hat⟩
        obtain ⟨es, hes⟩ := hat.of_isPrefix hin
        rw [hgone] at hes
        cases hes
      obtain ⟨e, he⟩ := removeTree_of_not_isDirectory hno
      rw [hdisk, he]
      exact hgone
    · have hkept := hconf₃.kept _ (List.forall_mem_singleton.2 (apart_of_stagingDir hp hapart.2 hin).symm)
      rw [hconf₃.cwd, hkept]
      exact hgone

/-- A private directory inside the staging directory of the public one cannot be committed: its own staging directory went with
that one. -/
theorem not_isPrefix_of_commits (hl : l.Placed out name name') (h : perform (commit l.publicDir) m = (.ok (), m'))
    {m'' : Machine} (h' : perform (commit l.privateDir) m' = (.ok (), m'')) :
    ¬(stagingDir l.publicDir).location m.disk.cwd <+: l.privateDir.location m.disk.cwd := by
  intro hin
  have hp := hl.publicDir
  have hq := hl.privateDir
  obtain ⟨⟨hconf, -⟩, hgone⟩ := commit_eq_ok hp h
  obtain ⟨⟨-, node, htree, -⟩, -⟩ := commit_eq_ok hq h'
  have hat := ((tree_eq_some_iff (stagingDir_spec hq).1.ends).1 htree).2
  rw [hconf.cwd] at hat
  have hbelow : (stagingDir l.publicDir).location m.disk.cwd <+: (stagingDir l.privateDir).location m.disk.cwd := by
    rw [hq.ends.location_eq] at hin
    rcases List.prefix_concat_iff.1 hin with heq | hin
    · rw [(stagingDir_spec hp).2] at heq
      exact absurd (List.singleton_inj.1 (List.append_inj' heq rfl).2).symm hl.unstaged
    · rw [(stagingDir_spec hq).2]
      exact hin.trans (List.prefix_append _ _)
  obtain ⟨rest, hrest⟩ := hbelow
  rw [← hrest, Node.at?_append, hgone] at hat
  nomatch hat

section

variable (hl : l.Placed out name name') (hpublics : ∀ e ∈ publics, (⟨e.path⟩ : Path).isPlain = true)
  (hprivates : ∀ e ∈ privates, (⟨e.path⟩ : Path).isPlain = true)

include hl hpublics hprivates

/-- The steps of replacing both directories, all from one working directory. -/
theorem replaceBoth_eq_ok (h : perform (replaceBoth l publics privates) m = (.ok (), m')) :
    ∃ m₁ m₂ m₃, perform (fill l.publicDir publics) m = (.ok (), m₁) ∧ perform (fill l.privateDir privates) m₁ = (.ok (), m₂) ∧
      perform (commit l.publicDir) m₂ = (.ok (), m₃) ∧ perform (commit l.privateDir) m₃ = (.ok (), m') ∧
      m₁.disk.cwd = m.disk.cwd ∧ m₂.disk.cwd = m.disk.cwd ∧ m₃.disk.cwd = m.disk.cwd := by
  obtain ⟨_, m₁, hfill, hrest⟩ := perform_bind_ok h
  obtain ⟨_, m₂, hfill', hrest⟩ := perform_bind_ok hrest
  obtain ⟨_, m₃, hcommit, hcommit'⟩ := perform_bind_ok hrest
  replace hfill' := perform_of_discarding_ok hfill'
  replace hcommit := perform_of_discarding_ok hcommit
  have hcwd₁ := (fill_spec hl.publicDir hpublics hfill).1.cwd
  have hcwd₂ := (fill_spec hl.privateDir hprivates hfill').1.cwd.trans hcwd₁
  have hcwd₃ := (commit_eq_ok hl.publicDir hcommit).1.confined.cwd.trans hcwd₂
  exact ⟨m₁, m₂, m₃, hfill, hfill', hcommit, hcommit', hcwd₁, hcwd₂, hcwd₃⟩

/-- Replacing both directories. -/
theorem materialized_both (hshared : l.shared = false) (hstart : m.disk.DirAt (l.publicDir.start m.disk.cwd))
    (hne : privates ≠ [])
    (hstage : ¬(stagingDir l.privateDir).location m.disk.cwd <+: l.publicDir.location m.disk.cwd)
    (h : perform (replaceBoth l publics privates) m = (.ok (), m')) : Materialized l publics privates m'.disk := by
  have hp := hl.publicDir
  have hq := hl.privateDir
  obtain ⟨m₁, m₂, m₃, hfill, hfill', hcommit, hcommit', hcwd₁, hcwd₂, hcwd₃⟩ := replaceBoth_eq_ok hl hpublics hprivates h
  have hconf₂ := (fill_spec hq hprivates hfill').1
  obtain ⟨⟨hconf₃, -⟩, hgone⟩ := commit_eq_ok hp hcommit
  obtain ⟨⟨hconf₄, -⟩, hgone'⟩ := commit_eq_ok hq hcommit'
  have hout := not_isPrefix_of_commits hl hcommit hcommit'
  have hcwd₄ : m'.disk.cwd = m.disk.cwd := hconf₄.cwd.trans hcwd₃
  rw [hcwd₁] at hconf₂
  rw [hcwd₂] at hout hconf₃ hgone
  rw [hcwd₃] at hconf₄ hgone'
  have hparted := parted_of_apart hp hq (hl.apart hshared m.disk.cwd) hout hstage
  have hstart₁ : m₁.disk.DirAt (l.privateDir.start m₁.disk.cwd) := by
    have hsame : l.privateDir.start m₁.disk.cwd = l.publicDir.start m.disk.cwd := by
      rw [Path.start, Path.start, hl.privateStart, hl.publicStart, hcwd₁]
    rw [hsame]
    exact dirAt_start_of_fill hp hl.publicStraight.not_mem_names hpublics hstart hfill
  have hfilled := holdsAt_of_fill hp hl.publicStraight.not_mem_names hpublics hstart hfill
  have hfilled' := holdsAt_of_fill hq hl.privateStraight.not_mem_names hprivates hstart₁ hfill'
  have hstaged := holdsAt_of_confined hfilled (stagingDir_spec hp).1 hconf₂
    (by rw [hcwd₁]; exact List.forall_mem_singleton.2 hparted.stages.symm)
  have hstaged' := holdsAt_of_confined hfilled' (stagingDir_spec hq).1 hconf₃
    (by rw [hcwd₂]; simpa using ⟨hparted.stages, hparted.right.symm⟩)
  have hheld := holdsAt_of_confined (holdsAt_of_commit hp hstaged hcommit) hp hconf₄
    (by rw [hcwd₃]; simpa using ⟨hparted.right, hparted.targets.symm⟩)
  have hkept := hconf₄.kept ((stagingDir l.publicDir).location m.disk.cwd)
    (by simpa using ⟨hparted.stages.symm, hparted.left.symm⟩)
  refine ⟨fun _ => hheld, fun _ _ => holdsAt_of_commit hq hstaged' hcommit', fun _ hnil => absurd hnil hne,
    fun hyes => absurd hyes (by simp [hshared]), ?_, fun _ => ?_⟩
  · refine tree_eq_none (stagingDir_spec hp).1.ends ?_
    rw [hcwd₄, hkept]
    exact hgone
  · refine tree_eq_none (stagingDir_spec hq).1.ends ?_
    rw [hcwd₄]
    exact hgone'

/-- A public directory inside the staging directory of the private one is moved with it, so it is gone in the end. -/
theorem tree_publicDir_of_isPrefix (hshared : l.shared = false) (hne : privates ≠ [])
    (hin : (stagingDir l.privateDir).location m.disk.cwd <+: l.publicDir.location m.disk.cwd)
    (h : perform (replace l publics privates) m = (.ok (), m')) : m'.disk.tree l.publicDir = none := by
  have hboth : replace l publics privates = (replaceBoth l publics privates : ExceptT LinkError (StateM Machine) Unit) := by
    simp [replace, hshared, hne]
  rw [hboth] at h
  obtain ⟨m₁, m₂, m₃, -, -, -, hcommit, -, -, hcwd⟩ := replaceBoth_eq_ok hl hpublics hprivates h
  obtain ⟨⟨hconf, -⟩, hgone⟩ := commit_eq_ok hl.privateDir hcommit
  rw [hcwd] at hgone
  refine tree_eq_none hl.publicDir.ends ?_
  obtain ⟨rest, hrest⟩ := hin
  rw [hconf.cwd, hcwd, ← hrest, Node.at?_append, hgone]
  rfl

/-- Replacing the directories of a layout. -/
theorem materialized_of_replace (hstart : m.disk.DirAt (out.start m.disk.cwd))
    (hstage : privates ≠ [] → ¬(stagingDir l.privateDir).location m.disk.cwd <+: l.publicDir.location m.disk.cwd)
    (h : perform (replace l publics privates) m = (.ok (), m')) : Materialized l publics privates m'.disk := by
  have hsame : l.publicDir.start m.disk.cwd = out.start m.disk.cwd := by
    rw [Path.start, Path.start, hl.publicStart]
  rw [← hsame] at hstart
  unfold replace at h
  split at h
  · rename_i hshared
    refine materialized_shared hl hshared (fun e he => ?_) hstart h
    exact (List.mem_append.1 he).elim (hpublics e) (hprivates e)
  · rename_i hshared
    rw [Bool.not_eq_true] at hshared
    split at h
    · rename_i hnil
      obtain rfl : privates = [] := by simpa using hnil
      exact materialized_public hl.publicDir hl.privateDir hl.publicStraight.not_mem_names hl.privateStraight.not_mem_names
        hshared (hl.apart hshared _) hpublics hstart h
    · rename_i hne
      have hne : privates ≠ [] := by simpa using hne
      exact materialized_both hl hpublics hprivates hshared hstart hne (hstage hne) h

/-- Replacing the directories of a layout leaves exactly the files unless the public directory is swallowed. -/
theorem materialized_iff_of_replace (hstart : m.disk.DirAt (out.start m.disk.cwd))
    (h : perform (replace l publics privates) m = (.ok (), m')) :
    Materialized l publics privates m'.disk ↔ ¬l.Swallowed privates m.disk.cwd := by
  constructor
  · rintro hdone ⟨hne, hin⟩
    have hshared : l.shared = false := by
      rw [← Bool.not_eq_true]
      intro hshared
      rw [Path.location_eq_of_sameAs hshared] at hin
      exact (apart_stagingDir hl.privateDir _).1 hin
    obtain ⟨node, hnode, -⟩ := hdone.publicDir hshared
    rw [tree_publicDir_of_isPrefix hl hpublics hprivates hshared hne hin h] at hnode
    nomatch hnode
  · intro hfree
    exact materialized_of_replace hl hpublics hprivates hstart (fun hne hin => hfree ⟨hne, hin⟩) h

end

/-! ## Whole runs -/

/-- Directories are replaced with a commit of the public one. -/
theorem exists_commit_of_replace (h : perform (replace l publics privates) m = (.ok (), m')) :
    ∃ m₁ m₂, perform (commit l.publicDir) m₁ = (.ok (), m₂) := by
  unfold replace at h
  split at h
  · obtain ⟨_, m₁, -, hcommit⟩ := perform_bind_ok h
    exact ⟨m₁, m', hcommit⟩
  · split at h
    · obtain ⟨_, m₁, -, hrest⟩ := perform_bind_ok h
      obtain ⟨_, m₂, hcommit, -⟩ := perform_bind_ok hrest
      exact ⟨m₁, m₂, hcommit⟩
    · obtain ⟨_, m₁, -, hrest⟩ := perform_bind_ok h
      obtain ⟨_, m₂, -, hrest⟩ := perform_bind_ok hrest
      obtain ⟨_, m₃, hcommit, -⟩ := perform_bind_ok hrest
      exact ⟨m₂, m₃, perform_of_discarding_ok hcommit⟩

/-- A deploy path that a directory can be renamed to ends in a name. -/
theorem exists_endsIn_of_commit {d : String} (hd : isDeployPath d = true)
    (h : perform (commit (out.join (dropSlashes d))) m = (.ok (), m')) : ∃ name, (⟨dropSlashes d⟩ : Path).EndsIn name := by
  obtain ⟨hrel, -⟩ := Path.isPlain_spec hd
  have hne : dropSlashes d ≠ "" := by
    intro hempty
    rw [isDeployPath, hempty] at hd
    nomatch hd
  obtain ⟨spot, name, hwalk, hname⟩ := exists_spot_of_rename (exists_rename_of_commit h)
  refine ⟨name, (out.endsIn_join_iff hrel).1 (endsIn_of_walk hwalk hname ?_)⟩
  obtain ⟨n, -, hlast⟩ := exists_dropSlashes d
  rw [slash_of_follow (follow_of_walk hwalk), out.getLast?_text_join hrel hne]
  exact beq_eq_false_iff_ne.2 hlast

/-- The layout of a successful run is placed; and where private files are put next to the public ones, nothing is in their
way. -/
theorem exists_placed {mod : Module} {extra : Option Path} (hout : out.IsStraight)
    (hextra : ∀ p, extra = some p → p.IsStraight ∧ p.isAbsolute = out.isAbsolute)
    (hresolve : Layout.resolve mod out extra = .ok l) (h : perform (replace l publics privates) m = (.ok (), m')) :
    ∃ name name', l.Placed out name name' ∧
      (extra = none → l.shared = false ∧ ∀ cwd, ¬(stagingDir l.privateDir).location cwd <+: l.publicDir.location cwd) := by
  obtain ⟨hd, hl, -⟩ := Layout.resolve_eq_ok hresolve
  have hpublicDir : l.publicDir = out.join (dropSlashes mod.deployTo) := hl ▸ Layout.publicDir_candidate ..
  obtain ⟨m₁, m₂, hcommit⟩ := exists_commit_of_replace h
  rw [hpublicDir] at hcommit
  obtain ⟨name, hends⟩ := exists_endsIn_of_commit hd hcommit
  cases extra with
  | none =>
    obtain ⟨name', hplaced, hbeside⟩ := Layout.placed_beside hout hends hresolve
    exact ⟨name, name', hplaced, fun _ => hbeside⟩
  | some extra =>
    obtain ⟨hstraight, habs⟩ := hextra extra rfl
    exact ⟨name, name, Layout.placed_extra hout hstraight habs hends hresolve, nofun⟩

/-- What a successful run did. -/
theorem produce_eq_ok {s : ArtifactSet} {mod : Module} {extra : Option Path} {report : OutputReport}
    (h : perform (produce s mod out extra) m = (.ok report, m')) :
    Layout.resolve mod out extra = .ok report.layout ∧ checkPaths s.emitted = .ok () ∧
      ∃ m₁, perform (replace report.layout s.publics s.privates) m = (.ok (), m₁) ∧ m'.disk = m₁.disk ∧
        report.advisories =
          if report.layout.beside && !m.disk.exists? report.layout.privateDir && m₁.disk.exists? report.layout.privateDir then
            [advice report.layout.privateDir]
          else [] := by
  obtain ⟨l, m₁, hresolve, hrest⟩ := perform_bind_ok h
  obtain ⟨hlayout, rfl⟩ := Prod.mk.inj ((perform_except m _).symm.trans hresolve)
  rw [perform_bind_of_ok (perform_lift ..), run_pathExists] at hrest
  obtain ⟨_, m₁, hcheck, hrest⟩ := perform_bind_ok hrest
  obtain ⟨hpaths, rfl⟩ := Prod.mk.inj ((perform_except m _).symm.trans hcheck)
  obtain ⟨_, m₂, hreplace, hrest⟩ := perform_bind_ok hrest
  obtain ⟨m₃, hadvise, hdisk⟩ := exists_perform_advise l (m.disk.exists? l.privateDir) m₂
  rw [perform_bind_of_ok hadvise, perform_bind_of_ok (perform_lift ..)] at hrest
  obtain ⟨hreport, rfl⟩ := Prod.mk.inj hrest
  obtain rfl := Except.ok.inj hreport
  exact ⟨hlayout, hpaths, m₂, hreplace, hdisk, rfl⟩

end Output

/-- After a successful deployment into directories of plain segments both directories hold exactly the files of their kinds, and
no stage is left; the one exception is a public directory inside the staging directory of the private one, which there never is
where private files are put next to the public ones. Advice is given exactly when private files made a directory there. -/
theorem produce_materializes {s : ArtifactSet} {mod : Module} {out : Path} {extra : Option Path} {m m' : Machine}
    {report : OutputReport} (hstart : m.disk.DirAt (out.start m.disk.cwd)) (hout : out.IsStraight)
    (hextra : ∀ p, extra = some p → p.IsStraight ∧ p.isAbsolute = out.isAbsolute)
    (h : perform (Output.produce s mod out extra) m = (.ok report, m')) :
    report.layout = .candidate mod.deployTo out extra ∧
      (Output.Materialized report.layout s.publics s.privates m'.disk ↔ ¬report.layout.Swallowed s.privates m.disk.cwd) ∧
      (extra = none → ¬report.layout.Swallowed s.privates m.disk.cwd) ∧
      report.advisories =
        if extra = none ∧ m.disk.exists? report.layout.privateDir = false ∧ s.privates ≠ [] then
          [Output.advice report.layout.privateDir]
        else [] := by
  obtain ⟨hresolve, hcheck, m₁, hreplace, hdisk, hadvice⟩ := Output.produce_eq_ok h
  have hplain := Output.checkPaths_eq_ok hcheck
  have hpublics : ∀ e ∈ s.publics, (⟨e.path⟩ : Path).isPlain = true := fun e he => hplain e (List.mem_filter.1 he).1
  have hprivates : ∀ e ∈ s.privates, (⟨e.path⟩ : Path).isPlain = true := fun e he => hplain e (List.mem_filter.1 he).1
  have hlayout := Output.eq_candidate_of_resolve hresolve
  obtain ⟨name, name', hplaced, hbeside⟩ := Output.exists_placed hout hextra hresolve hreplace
  have hiff := Output.materialized_iff_of_replace hplaced hpublics hprivates hstart hreplace
  have hfree : extra = none → ¬report.layout.Swallowed s.privates m.disk.cwd :=
    fun hnone hin => (hbeside hnone).2 _ hin.2
  rw [hdisk]
  refine ⟨hlayout, hiff, hfree, ?_⟩
  have hnext : report.layout.beside = extra.isNone := hlayout ▸ Layout.beside_candidate ..
  rw [hadvice, hnext]
  cases hextra' : extra with
  | some p => simp
  | none =>
    have hthere := (hiff.2 (hfree hextra')).exists?_privateDir (hbeside hextra').1
    rw [hthere]
    simp

/-- A machine where `page` was deployed before, with private files in a directory of their own. -/
def deployedMachine : Machine where
  disk := ⟨.directory [("aside", .directory [("hello", .directory [("old.map", .file "old".toUTF8)])]),
    ("out", .directory [("hello", .directory [("old.js", .file "old".toUTF8)])])], []⟩
  notes := []

example : (perform (Output.produce pageFiles page ⟨"out"⟩ none) deployedMachine).1.toOption.map (·.advisories) =
    some [Output.advice ⟨"out/hello-aux"⟩] := by decide +kernel

/-- The next deployment on `deployedMachine` leaves exactly the new files. -/
theorem page_materialized :
    deployedMachine.disk.DirAt ((⟨"out"⟩ : Path).start deployedMachine.disk.cwd) ∧
      (⟨"out"⟩ : Path).IsStraight ∧ (⟨"aside"⟩ : Path).IsStraight ∧
      (⟨"aside"⟩ : Path).isAbsolute = (⟨"out"⟩ : Path).isAbsolute ∧
      ∃ report m', perform (Output.produce pageFiles page ⟨"out"⟩ (some ⟨"aside"⟩)) deployedMachine = (.ok report, m') ∧
        Output.Materialized (.candidate page.deployTo ⟨"out"⟩ (some ⟨"aside"⟩)) pageFiles.publics pageFiles.privates m'.disk ∧
        report.advisories = [] := by
  have hstart : deployedMachine.disk.DirAt ((⟨"out"⟩ : Path).start deployedMachine.disk.cwd) := ⟨_, rfl⟩
  have hout : (⟨"out"⟩ : Path).IsStraight := by decide +kernel
  have haside : (⟨"aside"⟩ : Path).IsStraight := by decide +kernel
  have hdone : (perform (Output.produce pageFiles page ⟨"out"⟩ (some ⟨"aside"⟩)) deployedMachine).1.isOk = true := by
    decide +kernel
  have hfree : ¬(Layout.candidate page.deployTo ⟨"out"⟩ (some ⟨"aside"⟩)).Swallowed pageFiles.privates
      deployedMachine.disk.cwd := by
    decide +kernel
  refine ⟨hstart, hout, haside, rfl, ?_⟩
  rcases hrun : perform (Output.produce pageFiles page ⟨"out"⟩ (some ⟨"aside"⟩)) deployedMachine with ⟨r, m'⟩
  rw [hrun] at hdone
  cases r with
  | error e => nomatch hdone
  | ok report =>
    have hextra : ∀ p, some (⟨"aside"⟩ : Path) = some p → p.IsStraight ∧ p.isAbsolute = (⟨"out"⟩ : Path).isAbsolute := by
      rintro p ⟨⟩
      exact ⟨haside, rfl⟩
    obtain ⟨hlayout, hiff, -, hadvice⟩ := produce_materializes hstart hout hextra hrun
    rw [hlayout] at hiff
    exact ⟨report, m', rfl, hiff.2 hfree, hadvice.trans (if_neg (by simp))⟩

/-- Files of `page`: a public one, and a private one that is staged where public files were. -/
def cuckooFiles : ArtifactSet :=
  .ofList [.emitted (.ofText "std" "app.js" "app"), .emitted (.privateText "std" ".hello.staging/notes.txt" "notes")]

/-- Into an empty directory, `cuckooFiles` are deployed to a public directory inside the staging directory of the private one.
This succeeds, with one public file, but there is no public directory. -/
theorem cuckoo_public_lost :
    (⟨"e/.hello.staging"⟩ : Path).IsStraight ∧ (⟨"e"⟩ : Path).IsStraight ∧
      ∃ report m', perform (Output.produce cuckooFiles page ⟨"e/.hello.staging"⟩ (some ⟨"e"⟩)) ⟨⟨.directory [], []⟩, []⟩ =
          (.ok report, m') ∧
        report.publicFiles = 1 ∧ m'.disk.exists? report.layout.publicDir = false := by
  exact ⟨by decide +kernel, by decide +kernel, exists_ok_of_any (by decide +kernel)⟩

end DeferredBinding
