import DeferredBinding.Proofs.Deploy.Layout

/-!
# What a failed deployment leaves

Both directories of a layout are staged before either is replaced, so a failure up to the first replacement leaves both as they
were. The second replacement can still fail, and then the first is not taken back: this happens only where the private directory
was no directory before (`produce_error_trees`). All this is for layouts whose directories do not get in each other's way
(`Layout.Separate`).
-/

namespace DeferredBinding

open Disk

/-- The directories of a layout can be replaced one without the other. Each is given by a level path that ends in a name; and
unless they are one, neither is inside the other or inside the staging directory of the other. -/
structure Layout.Separate (l : Layout) (cwd : Location) : Prop where
  publicDir : ∃ name, l.publicDir.Descends name
  privateDir : ∃ name, l.privateDir.Descends name
  apart : l.shared = false → Apart (l.publicDir.location cwd) (l.privateDir.location cwd)
  publicStage : l.shared = false → ¬(Output.stagingDir l.publicDir).location cwd <+: l.privateDir.location cwd
  privateStage : l.shared = false → ¬(Output.stagingDir l.privateDir).location cwd <+: l.publicDir.location cwd

namespace Output

variable {d d' : Disk} {m m' : Machine} {p q : Path} {name name' : String}

/-! ## Locations of staging directories -/

/-- A staging directory is apart from what is not inside it and does not hold its target. -/
theorem apart_of_stagingDir (hp : p.Descends name) {cwd l : Location} (hin : ¬l <+: p.location cwd)
    (hout : ¬(stagingDir p).location cwd <+: l) : Apart ((stagingDir p).location cwd) l := by
  refine ⟨hout, fun hpre => ?_⟩
  rw [(stagingDir_spec hp).2] at hpre hout
  rcases List.prefix_concat_iff.1 hpre with heq | hpre
  · exact hout (heq ▸ List.prefix_rfl)
  · exact hin (hpre.trans (List.dropLast_prefix _))

/-- The staging directory of one directory is not around that of another that is not inside it. -/
theorem not_prefix_stagingDir (hp : p.Descends name) (hq : q.Descends name') {cwd : Location}
    (hne : p.location cwd ≠ q.location cwd) (hout : ¬(stagingDir p).location cwd <+: q.location cwd) :
    ¬(stagingDir p).location cwd <+: (stagingDir q).location cwd := by
  intro hpre
  rw [(stagingDir_spec hq).2] at hpre
  rcases List.prefix_concat_iff.1 hpre with heq | hpre
  · rw [(stagingDir_spec hp).2] at heq
    obtain ⟨hdir, hlast⟩ := List.append_inj' heq rfl
    have hname := stageName_inj (List.cons.inj hlast).1
    apply hne
    rw [hp.ends.location_eq, hq.ends.location_eq, hdir, hname]
  · exact hout (hpre.trans (List.dropLast_prefix _))

/-- Two directories that can be replaced one without the other: they and their staging directories are out of each other's way. -/
structure Parted (cwd : Location) (p q : Path) : Prop where
  targets : Apart (p.location cwd) (q.location cwd)
  left : Apart ((stagingDir p).location cwd) (q.location cwd)
  right : Apart ((stagingDir q).location cwd) (p.location cwd)
  stages : Apart ((stagingDir p).location cwd) ((stagingDir q).location cwd)

/-- Directories are out of each other's way if neither is inside the other or its staging directory. -/
theorem parted_of_apart (hp : p.Descends name) (hq : q.Descends name') {cwd : Location}
    (h : Apart (p.location cwd) (q.location cwd)) (hpq : ¬(stagingDir p).location cwd <+: q.location cwd)
    (hqp : ¬(stagingDir q).location cwd <+: p.location cwd) : Parted cwd p q := by
  have hne : p.location cwd ≠ q.location cwd := fun heq => h.1 (heq ▸ List.prefix_rfl)
  exact ⟨h, apart_of_stagingDir hp h.2 hpq, apart_of_stagingDir hq h.1 hqp, not_prefix_stagingDir hp hq hne hpq,
    not_prefix_stagingDir hq hp hne.symm hqp⟩

/-! ## One directory -/

/-- A commit after a successful filling. It succeeds, and the target is what was staged; or only the staging directory is
changed. -/
theorem commit_of_fill {files : List Emitted} {r : Except LinkError Unit} {m₁ : Machine} (hp : p.Descends name)
    (hfiles : ∀ e ∈ files, (⟨e.path⟩ : Path).isPlain = true) (hfill : perform (fill p files) m = (.ok (), m₁))
    (hcommit : perform (commit p) m₁ = (r, m')) :
    (r = .ok () ∧ Confined [(stagingDir p).location m.disk.cwd, p.location m.disk.cwd] m.disk m'.disk ∧
        ∃ node, m₁.disk.tree (stagingDir p) = some node ∧ m'.disk.tree p = some node) ∨
      (∃ e, r = .error e) ∧ Confined [(stagingDir p).location m.disk.cwd] m.disk m'.disk := by
  have hconf := (fill_spec hp hfiles hfill).1
  rcases commit_cases hp (staged_of_fill hp hfiles hfill) hcommit with ⟨rfl, hconf', hfound⟩ | ⟨e, rfl, -, hconf'⟩
  · rw [hconf.cwd] at hconf'
    exact Or.inl ⟨rfl, (hconf.mono (by simp)).trans hconf', hfound⟩
  · rw [hconf.cwd] at hconf'
    exact Or.inr ⟨⟨_, rfl⟩, hconf.trans hconf'⟩

/-- A failure to replace a directory for both kinds of file leaves it as it was. -/
theorem replaceShared_error {publics privates : List Emitted} {e : LinkError} (hp : p.Descends name)
    (hfiles : ∀ e ∈ publics ++ privates, (⟨e.path⟩ : Path).isPlain = true)
    (h : perform (replaceShared p publics privates) m = (.error e, m')) :
    Confined [(stagingDir p).location m.disk.cwd] m.disk m'.disk := by
  rcases perform_bind_cases h with ⟨_, hfill, -⟩ | ⟨_, m₁, hfill, hcommit⟩
  · exact (fill_spec hp hfiles hfill).1
  · rcases commit_of_fill hp hfiles hfill hcommit with ⟨hr, -⟩ | ⟨-, hconf⟩
    · nomatch hr
    · exact hconf

/-! ## Two directories -/

/-- The public directory was replaced, by all that was staged for it, before the private one turned out to be no directory. -/
structure PublicOnly (l : Layout) (publics : List Emitted) (m m' : Machine) (e : LinkError) : Prop where
  distinct : l.shared = false
  noDirectory : m.disk.isDirectory l.privateDir = false
  refused : ∃ refusal, e = .diskFailed l.privateDir refusal
  replaced : ∃ m₁ node, perform (fill l.publicDir publics) m = (.ok (), m₁) ∧
    m₁.disk.tree (stagingDir l.publicDir) = some node ∧ m'.disk.tree l.publicDir = some node

/-- What a failure leaves: the private directory as it was, and the public one too, unless that one was replaced already. -/
def Spared (l : Layout) (publics : List Emitted) (m m' : Machine) (e : LinkError) : Prop :=
  m'.disk.tree l.privateDir = m.disk.tree l.privateDir ∧
    (m'.disk.tree l.publicDir = m.disk.tree l.publicDir ∨ PublicOnly l publics m m' e)

/-- Two directories and the files for them. -/
structure Ready (m : Machine) (l : Layout) (publics privates : List Emitted) : Prop where
  distinct : l.shared = false
  publicDir : ∃ name, l.publicDir.Descends name
  privateDir : ∃ name, l.privateDir.Descends name
  parted : Parted m.disk.cwd l.publicDir l.privateDir
  publics : ∀ e ∈ publics, (⟨e.path⟩ : Path).isPlain = true
  privates : ∀ e ∈ privates, (⟨e.path⟩ : Path).isPlain = true

variable {l : Layout} {publics privates : List Emitted} {e : LinkError}

/-- A failure that only the staging directories show spares both directories. -/
theorem Ready.spared (hready : Ready m l publics privates)
    (h : Confined [(stagingDir l.publicDir).location m.disk.cwd, (stagingDir l.privateDir).location m.disk.cwd] m.disk m'.disk) :
    Spared l publics m m' e := by
  obtain ⟨_, hp⟩ := hready.publicDir
  obtain ⟨_, hq⟩ := hready.privateDir
  have hpublic := apart_stagingDir hp m.disk.cwd
  have hprivate := apart_stagingDir hq m.disk.cwd
  refine ⟨h.tree_eq hq ?_, Or.inl (h.tree_eq hp ?_)⟩
  · simpa using ⟨hready.parted.left, hprivate⟩
  · simpa using ⟨hpublic, hready.parted.right⟩

/-- A failure to replace the public directory and to remove the private one. -/
theorem Ready.replacePublic_error (hready : Ready m l publics privates)
    (h : perform (replacePublic l publics) m = (.error e, m')) : Spared l publics m m' e := by
  obtain ⟨_, hp⟩ := hready.publicDir
  obtain ⟨_, hq⟩ := hready.privateDir
  rcases perform_bind_cases h with ⟨_, hfill, -⟩ | ⟨_, m₁, hfill, hrest⟩
  · exact hready.spared ((fill_spec hp hready.publics hfill).1.mono (by simp))
  rcases perform_bind_cases hrest with ⟨_, hcommit, -⟩ | ⟨_, m₂, hcommit, hclear⟩
  · rcases commit_of_fill hp hready.publics hfill hcommit with ⟨hr, -⟩ | ⟨-, hconf⟩
    · nomatch hr
    · exact hready.spared (hconf.mono (by simp))
  rcases commit_of_fill hp hready.publics hfill hcommit with ⟨-, hconf, node, hnode, hfound⟩ | ⟨⟨_, hr⟩, -⟩
  · have hprivate := hconf.tree_eq hq (by simpa using ⟨hready.parted.left, hready.parted.targets⟩)
    cases hdir : m₂.disk.isDirectory l.privateDir with
    | true =>
      have hrun := perform_onDisk (run_clear_of_isDirectory hq.ends hdir) l.privateDir
      nomatch hrun.symm.trans hclear
    | false =>
      obtain ⟨r, hr⟩ := exists_run_clear_of_not_isDirectory hdir
      obtain ⟨he, rfl⟩ := Prod.mk.inj ((perform_onDisk hr l.privateDir).symm.trans hclear)
      refine ⟨hprivate, Or.inr ⟨hready.distinct, (isDirectory_congr hprivate).symm.trans hdir, ?_, m₁, node, hfill, hnode, hfound⟩⟩
      cases r with
      | ok u => nomatch he
      | error refusal => exact ⟨refusal, (Except.error.inj he).symm⟩
  · nomatch hr

/-- Filling the second staging directory behind the first. Only the staging directories are changed; and where it succeeds both
targets are staged, the first with what was there before. -/
theorem Ready.fill_second (hready : Ready m l publics privates) {m₁ : Machine} {r : Except LinkError Unit}
    (hfirst : perform (fill l.publicDir publics) m = (.ok (), m₁))
    (hsecond : perform (discarding (stagingDir l.publicDir) (fill l.privateDir privates)) m₁ = (r, m')) :
    Confined [(stagingDir l.publicDir).location m.disk.cwd, (stagingDir l.privateDir).location m.disk.cwd] m.disk m'.disk ∧
      (r = .ok () → Staged m'.disk l.publicDir ∧ Staged m'.disk l.privateDir ∧
        m'.disk.tree (stagingDir l.publicDir) = m₁.disk.tree (stagingDir l.publicDir)) := by
  obtain ⟨_, hp⟩ := hready.publicDir
  obtain ⟨_, hq⟩ := hready.privateDir
  have hstage := (stagingDir_spec hp).1
  have hconf₁ := (fill_spec hp hready.publics hfirst).1
  obtain ⟨m₂, hfill, hend⟩ := perform_discarding hsecond
  have hconf₂ := (fill_spec hq hready.privates hfill).1
  rw [hconf₁.cwd] at hconf₂
  have hboth : Confined [(stagingDir l.publicDir).location m.disk.cwd, (stagingDir l.privateDir).location m.disk.cwd]
      m.disk m₂.disk := (hconf₁.mono (by simp)).trans (hconf₂.mono (by simp))
  rcases hend with ⟨⟨_, rfl⟩, rfl⟩ | ⟨⟨_, rfl⟩, hdisk⟩
  · refine ⟨hboth, fun _ => ⟨?_, staged_of_fill hq hready.privates hfill, ?_⟩⟩
    · refine (staged_of_fill hp hready.publics hfirst).confined hp hconf₂ ?_ ?_
      · rw [hconf₁.cwd]
        exact List.forall_mem_singleton.2 hready.parted.right
      · rw [hconf₁.cwd]
        exact List.forall_mem_singleton.2 hready.parted.stages.2
    · refine hconf₂.tree_eq hstage ?_
      rw [hconf₁.cwd]
      exact List.forall_mem_singleton.2 hready.parted.stages.symm
  · have hremoved := confined_removeTree hstage.ends m₂.disk
    rw [← hdisk, hboth.cwd] at hremoved
    exact ⟨hboth.trans (hremoved.mono (by simp)), fun hr => nomatch hr⟩

/-- A failure of the public commit, behind which the private staging directory is removed, spares both directories. -/
theorem Ready.commit_first_error (hready : Ready m l publics privates) {m₂ : Machine}
    (hconf : Confined [(stagingDir l.publicDir).location m.disk.cwd, (stagingDir l.privateDir).location m.disk.cwd]
      m.disk m₂.disk)
    (hstaged : Staged m₂.disk l.publicDir)
    (h : perform (discarding (stagingDir l.privateDir) (commit l.publicDir)) m₂ = (.error e, m')) :
    Spared l publics m m' e := by
  obtain ⟨_, hp⟩ := hready.publicDir
  obtain ⟨_, hq⟩ := hready.privateDir
  obtain ⟨m₃, hcommit, hend⟩ := perform_discarding h
  rcases commit_cases hp hstaged hcommit with ⟨hr, -⟩ | ⟨_, -, -, hconf₃⟩
  · nomatch hr
  rw [hconf.cwd] at hconf₃
  have hconf₃ := hconf.trans (hconf₃.mono (by simp))
  rcases hend with ⟨⟨_, hr⟩, -⟩ | ⟨-, hdisk⟩
  · nomatch hr
  · have hremoved := confined_removeTree (stagingDir_spec hq).1.ends m₃.disk
    rw [← hdisk, hconf₃.cwd] at hremoved
    exact hready.spared (hconf₃.trans (hremoved.mono (by simp)))

/-- A failure of the private commit behind the public one: the private directory was none, and is as it was. -/
theorem Ready.commit_second_error (hready : Ready m l publics privates) {m₁ m₂ m₃ : Machine}
    (hfirst : perform (fill l.publicDir publics) m = (.ok (), m₁))
    (hsecond : perform (discarding (stagingDir l.publicDir) (fill l.privateDir privates)) m₁ = (.ok (), m₂))
    (hcommit : perform (commit l.publicDir) m₂ = (.ok (), m₃)) (h : perform (commit l.privateDir) m₃ = (.error e, m')) :
    Spared l publics m m' e := by
  obtain ⟨_, hp⟩ := hready.publicDir
  obtain ⟨_, hq⟩ := hready.privateDir
  obtain ⟨hconf₂, hboth⟩ := hready.fill_second hfirst hsecond
  obtain ⟨hstaged, hstaged', htree₂⟩ := hboth rfl
  rcases commit_cases hp hstaged hcommit with ⟨-, hconf₃, node, hnode, hfound⟩ | ⟨_, hr, -⟩
  · have htargets : ∀ s ∈ [(stagingDir l.publicDir).location m₂.disk.cwd, l.publicDir.location m₂.disk.cwd],
        Apart s (l.privateDir.location m₂.disk.cwd) := by
      rw [hconf₂.cwd]
      simpa using ⟨hready.parted.left, hready.parted.targets⟩
    have hstaged₃ : Staged m₃.disk l.privateDir := by
      refine hstaged'.confined hq hconf₃ htargets ?_
      rw [hconf₂.cwd]
      simpa using ⟨hready.parted.stages.1, hready.parted.right.2⟩
    have hprivate₂ := hconf₂.tree_eq hq (by simpa using ⟨hready.parted.left, apart_stagingDir hq m.disk.cwd⟩)
    have hprivate₃ := (hconf₃.tree_eq hq htargets).trans hprivate₂
    rcases commit_cases hq hstaged₃ h with ⟨hr, -⟩ | ⟨refusal, hr, hno, hconf₄⟩
    · nomatch hr
    have hcwd : m₃.disk.cwd = m.disk.cwd := hconf₃.cwd.trans hconf₂.cwd
    have hpublic₄ : m'.disk.tree l.publicDir = m₃.disk.tree l.publicDir := by
      refine hconf₄.tree_eq hp ?_
      rw [hcwd]
      exact List.forall_mem_singleton.2 hready.parted.right
    have hprivate₄ := hconf₄.tree_eq hq (List.forall_mem_singleton.2 (apart_stagingDir hq m₃.disk.cwd))
    refine ⟨hprivate₄.trans hprivate₃, Or.inr ⟨hready.distinct, ?_, ?_, m₁, node, hfirst, ?_, ?_⟩⟩
    · exact (isDirectory_congr hprivate₃).symm.trans hno
    · exact ⟨refusal, Except.error.inj hr⟩
    · exact htree₂.symm.trans hnode
    · exact hpublic₄.trans hfound
  · nomatch hr

/-- A failure to replace both directories. -/
theorem Ready.replaceBoth_error (hready : Ready m l publics privates)
    (h : perform (replaceBoth l publics privates) m = (.error e, m')) : Spared l publics m m' e := by
  obtain ⟨_, hp⟩ := hready.publicDir
  rcases perform_bind_cases h with ⟨_, hfirst, -⟩ | ⟨_, m₁, hfirst, hrest⟩
  · exact hready.spared ((fill_spec hp hready.publics hfirst).1.mono (by simp))
  rcases perform_bind_cases hrest with ⟨_, hsecond, -⟩ | ⟨_, m₂, hsecond, hrest⟩
  · exact hready.spared (hready.fill_second hfirst hsecond).1
  rcases perform_bind_cases hrest with ⟨_, hcommit, he⟩ | ⟨_, m₃, hcommit, hrest⟩
  · obtain ⟨hconf, hstaged⟩ := hready.fill_second hfirst hsecond
    rw [Except.error.inj he]
    exact hready.commit_first_error hconf (hstaged rfl).1 hcommit
  · exact hready.commit_second_error hfirst hsecond (perform_of_discarding_ok hcommit) hrest

/-! ## Whole runs -/

/-- Files that pass the check have plain paths. -/
theorem checkPaths_eq_ok {files : List Emitted} (h : checkPaths files = .ok ()) :
    ∀ e ∈ files, (⟨e.path⟩ : Path).isPlain = true := by
  induction files with
  | nil => exact fun e he => nomatch he
  | cons first files ih =>
    rw [checkPaths] at h
    split at h
    · rename_i hplain
      intro e he
      rcases List.mem_cons.1 he with rfl | he
      · exact hplain
      · exact ih h e he
    · nomatch h

/-- Files with plain paths pass the check. -/
theorem checkPaths_of_isPlain {files : List Emitted} (h : ∀ e ∈ files, (⟨e.path⟩ : Path).isPlain = true) :
    checkPaths files = .ok () := by
  induction files with
  | nil => rfl
  | cons first files ih =>
    obtain ⟨hfirst, hrest⟩ := List.forall_mem_cons.1 h
    rw [checkPaths, if_pos hfirst]
    exact ih hrest

/-- A failure to replace the directories of a layout. -/
theorem replace_error (hl : l.Separate m.disk.cwd) (hpublics : ∀ e ∈ publics, (⟨e.path⟩ : Path).isPlain = true)
    (hprivates : ∀ e ∈ privates, (⟨e.path⟩ : Path).isPlain = true)
    (h : perform (replace l publics privates) m = (.error e, m')) : Spared l publics m m' e := by
  obtain ⟨_, hp⟩ := hl.publicDir
  obtain ⟨_, hq⟩ := hl.privateDir
  rw [replace] at h
  split at h
  · rename_i hshared
    have hfiles : ∀ e ∈ publics ++ privates, (⟨e.path⟩ : Path).isPlain = true := fun e he =>
      (List.mem_append.1 he).elim (hpublics e) (hprivates e)
    have hconf := replaceShared_error hp hfiles h
    have hapart := apart_stagingDir hp m.disk.cwd
    refine ⟨hconf.tree_eq hq ?_, Or.inl (hconf.tree_eq hp (List.forall_mem_singleton.2 hapart))⟩
    rw [← Path.location_eq_of_sameAs hshared]
    exact List.forall_mem_singleton.2 hapart
  · rename_i hshared
    rw [Bool.not_eq_true] at hshared
    have hready : Ready m l publics privates :=
      ⟨hshared, hl.publicDir, hl.privateDir,
        parted_of_apart hp hq (hl.apart hshared) (hl.publicStage hshared) (hl.privateStage hshared), hpublics, hprivates⟩
    split at h
    · exact hready.replacePublic_error h
    · exact hready.replaceBoth_error h

/-- Giving advice does not fail, and nothing is changed on the disk. -/
theorem exists_perform_advise (l : Layout) (before : Bool) (m : Machine) :
    ∃ m', perform (advise l before) m =
        (.ok (if l.beside && !before && m.disk.exists? l.privateDir then [advice l.privateDir] else []), m') ∧
      m'.disk = m.disk := by
  rw [advise, perform_bind_of_ok (perform_lift ..), run_pathExists]
  split
  · exact ⟨_, rfl, rfl⟩
  · exact ⟨_, rfl, rfl⟩

/-- The layout of a module is the one for its deploy path. -/
theorem eq_candidate_of_resolve {mod : Module} {out : Path} {extra : Option Path} (h : Layout.resolve mod out extra = .ok l) :
    l = .candidate mod.deployTo out extra :=
  (Layout.resolve_eq_ok h).2.1

/-- Where a run fails: before anything is changed, or in replacing the directories of its layout. -/
theorem produce_error_cases {s : ArtifactSet} {mod : Module} {out : Path} {extra : Option Path}
    (h : perform (produce s mod out extra) m = (.error e, m')) :
    m' = m ∨ ∃ l, Layout.resolve mod out extra = .ok l ∧ checkPaths s.emitted = .ok () ∧
      perform (replace l (s.emitted.filter (·.isPublic)) (s.emitted.filter fun e => !e.isPublic)) m = (.error e, m') := by
  rcases perform_bind_cases h with ⟨_, hresolve, -⟩ | ⟨l, m₁, hresolve, hrest⟩
  · obtain ⟨-, rfl⟩ := Prod.mk.inj hresolve
    exact Or.inl rfl
  obtain ⟨hlayout, rfl⟩ := Prod.mk.inj ((perform_except m _).symm.trans hresolve)
  rw [perform_bind_of_ok (perform_lift ..), run_pathExists] at hrest
  rcases perform_bind_cases hrest with ⟨_, hcheck, -⟩ | ⟨_, m₁, hcheck, hrest⟩
  · obtain ⟨-, rfl⟩ := Prod.mk.inj hcheck
    exact Or.inl rfl
  obtain ⟨hpaths, rfl⟩ := Prod.mk.inj ((perform_except m _).symm.trans hcheck)
  refine Or.inr ⟨l, hlayout, hpaths, ?_⟩
  rcases perform_bind_cases hrest with ⟨_, hreplace, he⟩ | ⟨_, m₂, -, hrest⟩
  · rw [Except.error.inj he]
    exact hreplace
  · -- behind the replacement nothing fails
    obtain ⟨m₃, hadvise, -⟩ := exists_perform_advise l (m.disk.exists? l.privateDir) m₂
    rw [perform_bind_of_ok hadvise, perform_bind_of_ok (perform_lift ..)] at hrest
    nomatch hrest

end Output

/-- A failed deployment leaves the trees at both directories of its layout as they were. The one exception: where there was no
private directory and something else is in its way, the public directory may have been replaced, and then wholly. -/
theorem produce_error_trees {s : ArtifactSet} {mod : Module} {out : Path} {extra : Option Path} {m m' : Machine} {e : LinkError}
    (hl : ∀ l, Layout.resolve mod out extra = .ok l → l.Separate m.disk.cwd)
    (h : perform (Output.produce s mod out extra) m = (.error e, m')) :
    Output.Spared (.candidate mod.deployTo out extra) (s.emitted.filter (·.isPublic)) m m' e := by
  rcases Output.produce_error_cases h with rfl | ⟨l, hresolve, hcheck, hreplace⟩
  · exact ⟨rfl, Or.inl rfl⟩
  · have hplain := Output.checkPaths_eq_ok hcheck
    have hspared := Output.replace_error (hl l hresolve) (fun e he => hplain e (List.mem_filter.1 he).1)
      (fun e he => hplain e (List.mem_filter.1 he).1) hreplace
    rwa [Output.eq_candidate_of_resolve hresolve] at hspared

/-- A module that is deployed below its name. -/
def page : Module :=
  .plain "hello" .empty

/-- A public and a private file of `page`. -/
def pageFiles : ArtifactSet :=
  .ofList [.emitted (.ofText "std" "new.js" "new"), .emitted (.privateText "std" "symbols.txt" "map")]

/-- A machine where `page` was deployed before, with a file in the place of the private directory. -/
def blockedMachine : Machine where
  disk := ⟨.directory [("out", .directory [("hello", .directory [("old.js", .file "old".toUTF8)]),
    ("hello-aux", .file "notes".toUTF8)])], []⟩
  notes := []

theorem page_separate (l : Layout) (h : Layout.resolve page ⟨"out"⟩ none = .ok l) : l.Separate blockedMachine.disk.cwd := by
  rw [Output.eq_candidate_of_resolve h]
  exact ⟨⟨"hello", by decide +kernel, by decide +kernel⟩, ⟨"hello-aux", by decide +kernel, by decide +kernel⟩,
    fun _ => by decide +kernel, fun _ => by decide +kernel, fun _ => by decide +kernel⟩

/-- On `blockedMachine` the deployment fails, and yet the public directory is not what it was. -/
theorem blocked_public_replaced :
    (∀ l, Layout.resolve page ⟨"out"⟩ none = .ok l → l.Separate blockedMachine.disk.cwd) ∧
      ∃ m', perform (Output.produce pageFiles page ⟨"out"⟩ none) blockedMachine =
          (.error (.diskFailed ⟨"out/hello-aux"⟩ .notDirectory), m') ∧
        Output.Spared (.candidate page.deployTo ⟨"out"⟩ none) (pageFiles.emitted.filter (·.isPublic)) blockedMachine m'
          (.diskFailed ⟨"out/hello-aux"⟩ .notDirectory) ∧
        blockedMachine.disk.isFile ⟨"out/hello/old.js"⟩ = true ∧ m'.disk.isFile ⟨"out/hello/old.js"⟩ = false := by
  have hfailed : (perform (Output.produce pageFiles page ⟨"out"⟩ none) blockedMachine).1 =
      .error (.diskFailed ⟨"out/hello-aux"⟩ .notDirectory) := by decide +kernel
  have hgone : (perform (Output.produce pageFiles page ⟨"out"⟩ none) blockedMachine).2.disk.isFile ⟨"out/hello/old.js"⟩ =
      false := by decide +kernel
  refine ⟨page_separate, ?_⟩
  rcases hrun : perform (Output.produce pageFiles page ⟨"out"⟩ none) blockedMachine with ⟨r, m'⟩
  rw [hrun] at hfailed hgone
  obtain rfl : r = .error (.diskFailed ⟨"out/hello-aux"⟩ .notDirectory) := hfailed
  exact ⟨m', rfl, produce_error_trees page_separate hrun, by decide +kernel, hgone⟩

end DeferredBinding
