import DeferredBinding.Proofs.Deploy.Contents
import DeferredBinding.Proofs.Deploy.Frame

/-!
# Runs that are given up before anything is replaced

Both staging directories are filled before either directory is replaced. A failure up to there gives the run up: each staging
directory that was opened can still be removed then (`Clearable`), since nothing that was written on the way takes away a
directory that its path enters. So no staging directory is left that was not there before, and both directories are as they were
(`produce_abandoned`), for layouts whose directories do not get in the way of each other (`Layout.Unobstructed`).
-/

namespace DeferredBinding

/-! ## Paths that lead on -/

namespace Disk

variable {d d' : Disk} {p : Path} {name : String}

/-- Parts that can be followed on a disk can be followed on every disk with the directories that they enter. -/
theorem follow_of_entered {slash : Bool} {here : Location} {parts : List String} {spot : Spot}
    (h : d.follow slash here parts = .ok spot)
    (hdirs : ∀ before part after, parts = before ++ part :: after → after ≠ [] → part ≠ "." → part ≠ ".." →
      d.DirAt (((before ++ [part]).filter (· ≠ ".")).foldl climb here) →
        d'.DirAt (((before ++ [part]).filter (· ≠ ".")).foldl climb here)) :
    d'.follow slash here parts = .ok spot := by
  induction parts generalizing here with
  | nil => exact h
  | cons part rest ih =>
    rcases follow_cons.1 h with ⟨rfl, rfl⟩ | ⟨hne, there, hent, hrest⟩
    · exact follow_cons.2 (Or.inl ⟨rfl, rfl⟩)
    · have hthere := (enter_eq_ok hent).1
      refine follow_cons.2 (Or.inr ⟨hne, there, enter_mono hent fun hdot hdots => ?_, ih hrest ?_⟩)
      · rw [hthere]
        exact hdirs [] part rest rfl hne hdot hdots
      · intro before inner after hparts hafter hdot hdots
        rw [hthere, ← List.foldl_append, ← List.filter_append]
        exact hdirs (part :: before) inner after (by rw [hparts]; rfl) hafter hdot hdots

/-- A place that can be named on a disk can be named on every disk with the directories that its path enters. -/
theorem Reaches.of_entered (hp : p.EndsIn name) (h : d.Reaches p name) (hcwd : d'.cwd = d.cwd)
    (hdirs : ∀ l, p.Enters d.cwd l → d.DirAt l → d'.DirAt l) : d'.Reaches p name := by
  refine ⟨?_, h.short⟩
  rw [hcwd]
  refine walk_of_follow h.walk_eq hcwd (follow_of_entered (follow_of_walk h.walk_eq) ?_)
  intro before part after hparts hafter hdot hdots
  have hidle := hp.2.1
  rw [Path.isIdle, Bool.or_eq_false_iff] at hidle
  -- the last part is the name that the path ends in, so a name follows
  have hlast : name ∈ after := by
    obtain ⟨front, hfront⟩ := List.getLast?_eq_some_iff.1 hp.1
    have hend : (before ++ part :: after).getLast? = some name := by
      rw [← hparts, hfront, List.filter_append, List.filter_cons_of_pos (by simp [bne, hidle.1]), List.filter_nil,
        List.getLast?_concat]
    rw [List.getLast?_append_cons, List.getLast?_cons, List.getLast?_eq_getLast_of_ne_nil hafter] at hend
    rw [← Option.some.inj hend]
    exact List.getLast_mem hafter
  refine hdirs _ ⟨before.filter (· ≠ "."), part, after.filter (· ≠ "."), ?_, hdots, ?_, ?_⟩
  · rw [← filter_parts, hparts, List.filter_append, List.filter_cons_of_pos (by simpa using hdot)]
  · have hname : name ≠ "." := by simpa using hidle.2
    exact List.ne_nil_of_mem (List.mem_filter.2 ⟨hlast, by simpa using hname⟩)
  · rw [List.filter_append, List.filter_cons_of_pos (by simpa using hdot), List.filter_nil]

/-! ## Places that can be cleared -/

/-- What is at a path can be removed: the path leads there, and there is no file. -/
structure Clearable (d : Disk) (p : Path) (name : String) : Prop where
  reaches : d.Reaches p name
  noFile : ∀ bytes, d.root.view (p.location d.cwd) ≠ some (.file bytes)

/-- Nothing is left at a place that can be cleared. -/
theorem Clearable.at?_removeTree (hp : p.EndsIn name) (h : d.Clearable p name) :
    (d.removeTree p).2.root.at? (p.location d.cwd) = none := by
  cases hdir : d.isDirectory p with
  | true => exact Output.at?_of_removeTree hp hdir
  | false =>
    obtain ⟨e, he⟩ := removeTree_of_not_isDirectory hdir
    rw [he]
    cases hat : d.root.at? (p.location d.cwd) with
    | none => rfl
    | some node =>
      cases node with
      | file bytes => exact absurd ((Node.at?_eq_file_iff_view _ _ bytes).1 hat) (h.noFile bytes)
      | directory es =>
        rw [(isDirectory_iff hp).2 ⟨h.reaches, es, hat⟩] at hdir
        nomatch hdir

/-- A place that can be named stays so, if no directory that its path enters is touched. -/
theorem Reaches.of_spares {s : Scope} (hp : p.EndsIn name) (h : d.Reaches p name) (hs : s.Spares d d')
    (henters : ∀ l, p.Enters d.cwd l → ¬s.Inside l) : d'.Reaches p name := by
  refine h.of_entered hp hs.cwd fun l hl hdir => ?_
  have hview := (Node.isDirAt_iff_view _ _).1 hdir
  rcases hs.kept l (henters l hl) with hkept | ⟨hnone, -⟩
  · exact (Node.isDirAt_iff_view _ _).2 (hkept.trans hview)
  · rw [hnone] at hview
    nomatch hview

/-- A place that can be cleared stays so, if neither it nor a directory that its path enters is touched. -/
theorem Clearable.of_spares {s : Scope} (hp : p.EndsIn name) (h : d.Clearable p name) (hs : s.Spares d d')
    (henters : ∀ l, p.Enters d.cwd l → ¬s.Inside l) (hplace : ¬s.Inside (p.location d.cwd)) : d'.Clearable p name := by
  refine ⟨h.reaches.of_spares hp hs henters, fun bytes hfile => ?_⟩
  rw [hs.cwd] at hfile
  rcases hs.kept _ hplace with hkept | ⟨-, hdir, -⟩
  · exact h.noFile bytes (hkept.symm.trans hfile)
  · rw [hdir] at hfile
    nomatch hfile

/-- A directory that is made can be cleared. -/
theorem clearable_of_makeDirectory (hp : p.EndsIn name) (h : d.makeDirectory p = .ok d') : d'.Clearable p name := by
  obtain ⟨spot, last, hwalk, hlast, hshort, hnone, rfl⟩ := makeDirectory_eq_ok h
  obtain rfl := walk_eq_of_endsIn hp hwalk
  obtain rfl : name = last := Last.name.inj hlast
  have hdirs : ∀ l, d.DirAt l → (d.update (p.location d.cwd) (some .empty)).DirAt l := fun l hl => by
    refine hl.update ?_ _
    rintro ⟨es, hes⟩
    rw [hnone] at hes
    cases hes
  refine ⟨⟨walk_of_follow hwalk rfl (follow_of_kept (follow_of_walk hwalk) hdirs), hshort⟩, fun bytes hfile => ?_⟩
  have hbefore : d.root.view (p.location d.cwd) = none := by
    rw [Node.view, hnone, Option.map_none]
  rcases view_update_empty hnone (p.location d.cwd) with hsame | ⟨-, hdir, -⟩
  · cases (hsame.trans hbefore).symm.trans hfile
  · cases hdir.symm.trans hfile

/-- A directory that is found can be cleared. -/
theorem clearable_of_isDirectory (hp : p.EndsIn name) (h : d.isDirectory p = true) : d.Clearable p name := by
  obtain ⟨hreach, hdir⟩ := (isDirectory_iff hp).1 h
  refine ⟨hreach, fun bytes hfile => ?_⟩
  rw [(Node.isDirAt_iff_view _ _).1 hdir] at hfile
  nomatch hfile

end Disk

open Disk

/-! ## What is kept -/

namespace Scope

variable {s : Scope} {d d' : Disk}

/-- What is apart from the places of a scope and has no way of it at or inside is kept as a whole. -/
theorem Touches.at?_eq (h : s.Touches d d') {x : Location} (hplaces : ∀ place ∈ s.places, Apart place x)
    (hway : ∀ l, s.way l → ¬x <+: l) : d'.root.at? x = d.root.at? x := by
  induction h with
  | refl => rfl
  | inside new _ hl ih =>
    obtain ⟨place, hplace, rest, rfl⟩ := hl
    have hapart := (hplaces place hplace).append rest []
    rw [List.append_nil] at hapart
    exact (Node.at?_set_of_apart _ new hapart.1 hapart.2).trans ih
  | opened _ hl hnone ih => exact (at?_update_empty hnone (hway _ hl)).trans ih

end Scope

namespace Output

variable {d d' : Disk} {m m' : Machine} {p q : Path} {before : List String} {name : String}

/-! ## Opening a stage -/

/-- A staging directory is given by a path that ends in its name. -/
theorem endsIn_stagingDir (h : p.names = before ++ [name]) (hne : name ≠ "..") : (stagingDir p).EndsIn (stageName name) := by
  obtain ⟨parent, hstage, -, -⟩ := exists_stagingDir_eq h hne
  have hslash : '/' ∉ name.toList := by
    have hmem : name ∈ p.names := by simp [h]
    exact Path.not_mem_of_mem_pieces (List.mem_filter.1 hmem).1
  rw [hstage]
  exact (endsIn_stageName hslash).join parent (isAbsolute_stageName name)

/-- The path of a staging directory enters what the path of its directory enters. -/
theorem enters_of_stagingDir (h : p.names = before ++ [name]) (hne : name ≠ "..") {cwd l : Location}
    (hl : (stagingDir p).Enters cwd l) : p.Enters cwd l := by
  obtain ⟨habs, hnames⟩ := names_stagingDir h hne
  obtain ⟨front, part, after, hparts, hpart, hafter, rfl⟩ := hl
  obtain ⟨back, last, rfl⟩ := (List.eq_nil_or_concat' after).resolve_left hafter
  rw [hnames, ← List.cons_append, ← List.append_assoc] at hparts
  obtain ⟨hbefore, -⟩ := List.append_inj' hparts rfl
  refine ⟨front, part, back ++ [name], ?_, hpart, by simp, ?_⟩
  · rw [h, hbefore]
    simp
  · rw [Path.start, Path.start, habs]

/-- Where making a directory fails, only directories that its path enters may have been made. -/
theorem touches_of_makeDirectories_error {e : Refusal} (hp : p.EndsIn name)
    (h : (Host.makeDirectories p : StateM Machine (Except Refusal Unit)).run m = (.error e, m')) :
    (⟨[], p.Enters m.disk.cwd⟩ : Scope).Touches m.disk m'.disk := by
  obtain ⟨outer, houter⟩ := p.exists_ancestors_eq_cons
  rw [Host.makeDirectories, houter] at h
  rcases makeDirectoriesOf_cons hp.text_ne h with hnow | ⟨r₁, m₁, hrun, hthen⟩
  · rcases hnow with ⟨_, -, hr, -⟩ | ⟨rfl, -⟩
    · cases hr
    · exact .refl _
  · have houters : (⟨[], p.Enters m.disk.cwd⟩ : Scope).Touches m.disk m₁.disk := by
      refine (makeDirectoriesOf_induction .refl .trans (fun q hq d d' hcwd hmake => ?_) hrun).1
      refine Scope.touches_makeDirectory (fun front last hnames hlast => Or.inr ?_) hmake
      obtain ⟨habs, rest, hrest⟩ := Path.of_mem_outer houter hq
      refine ⟨front, last, rest ++ [name], ?_, hlast, by simp, ?_⟩
      · rw [hp.names_eq, ← hrest, hnames]
        simp
      · rw [hcwd, Path.location, hnames, Path.start, Path.start, habs]
    rcases hthen with ⟨_, -, hr, -⟩ | ⟨rfl, -⟩
    · cases hr
    · exact houters

/-- What clearing a place comes to: nothing is left there, or nothing is changed. It fails only in the latter case. -/
theorem clear_cases {r : Except Refusal Unit} (hp : p.EndsIn name)
    (h : (Host.clear p : StateM Machine (Except Refusal Unit)).run m = (r, m')) :
    m'.disk.cwd = m.disk.cwd ∧
      (r = .ok () ∧ m'.disk.root.at? (p.location m.disk.cwd) = none ∨ m'.disk = m.disk) := by
  cases hdir : m.disk.isDirectory p with
  | true =>
    have hgone := at?_of_removeTree hp hdir
    rw [removeTree_of_isDirectory hp hdir] at hgone
    rw [run_clear_of_isDirectory hp hdir] at h
    obtain ⟨rfl, rfl⟩ := Prod.mk.inj h
    exact ⟨rfl, Or.inl ⟨rfl, hgone⟩⟩
  | false =>
    obtain ⟨r₁, hrun⟩ := exists_run_clear_of_not_isDirectory hdir
    rw [hrun] at h
    obtain ⟨-, rfl⟩ := Prod.mk.inj h
    exact ⟨rfl, Or.inr rfl⟩

/-- At a location nothing is left, or what was there before. -/
def GoneOrKept (l : Location) (d d' : Disk) : Prop :=
  d'.root.at? l = none ∨ d'.root.at? l = d.root.at? l

/-- Where opening a stage fails, no stage is left that was not there before. -/
theorem openStage_error {e : LinkError} (hp : p.EndsIn name)
    (hway : ∀ l, p.Enters m.disk.cwd l → ¬p.location m.disk.cwd <+: l)
    (h : perform (openStage p) m = (.error e, m')) : GoneOrKept (p.location m.disk.cwd) m.disk m'.disk := by
  rcases hclear : (Host.clear p : StateM Machine (Except Refusal Unit)).run m with ⟨r, m₁⟩
  obtain ⟨hcwd, hcleared⟩ := clear_cases hp hclear
  have hstart : GoneOrKept (p.location m.disk.cwd) m.disk m₁.disk := by
    rcases hcleared with ⟨-, hgone⟩ | hsame
    · exact Or.inl hgone
    · exact Or.inr (by rw [hsame])
  rcases perform_bind_cases h with ⟨_, hx, -⟩ | ⟨_, m₂, hx, hmake⟩
  · obtain ⟨-, rfl⟩ := Prod.mk.inj ((perform_onDisk hclear p).symm.trans hx)
    exact hstart
  · obtain ⟨-, rfl⟩ := Prod.mk.inj ((perform_onDisk hclear p).symm.trans hx)
    rcases hrun : (Host.makeDirectories p : StateM Machine (Except Refusal Unit)).run m₁ with ⟨r₂, m₂⟩
    obtain ⟨hr, rfl⟩ := Prod.mk.inj ((perform_onDisk hrun p).symm.trans hmake)
    cases r₂ with
    | ok u => nomatch hr
    | error e₂ =>
      have htouches := touches_of_makeDirectories_error hp hrun
      rw [hcwd] at htouches
      rw [GoneOrKept, htouches.at?_eq (by simp) hway]
      exact hstart

/-- A stage that was opened can be cleared. -/
theorem clearable_of_openStage (hp : p.EndsIn name) (h : perform (openStage p) m = (.ok (), m')) : m'.disk.Clearable p name := by
  obtain ⟨_, m₁, -, hmake⟩ := perform_bind_ok h
  have hrun := run_of_onDisk_ok hmake
  obtain ⟨outer, houter⟩ := p.exists_ancestors_eq_cons
  rw [Host.makeDirectories, houter] at hrun
  have hattempt : ∀ {m : Machine}, Attempted p m (.ok ()) m' → m'.disk.Clearable p name := by
    rintro m (⟨disk, hmade, -, rfl⟩ | ⟨rfl, hdir⟩)
    · exact clearable_of_makeDirectory hp hmade
    · exact clearable_of_isDirectory hp (hdir rfl)
  rcases makeDirectoriesOf_cons hp.text_ne hrun with hnow | ⟨_, _, -, hthen⟩
  · exact hattempt hnow
  · exact hattempt hthen

/-! ## Filling a stage -/

/-- Files are staged inside any scope that holds them, if directories may be made anywhere. -/
theorem confines_stageFiles {s : Scope} {cwd : Location} (hway : ∀ l, s.way l) {files : List Emitted}
    (hfiles : ∀ e ∈ files, s.Inside ((p.join e.path).location cwd)) : s.Confines cwd (stageFiles p files) := by
  induction files with
  | nil => exact Scope.confines_of_disk_eq fun m => rfl
  | cons e files ih =>
    obtain ⟨he, hrest⟩ := List.forall_mem_cons.1 hfiles
    exact (Scope.confines_stageFile (fun _ _ _ _ _ _ _ _ => Or.inr (hway _)) he).bind fun _ => ih hrest

/-- Files are staged strictly below a stage, so it can be cleared behind them. -/
theorem clearable_of_stageFiles {r : Except LinkError Unit} {files : List Emitted} (hp : p.EndsIn name)
    (hclear : m.disk.Clearable p name) (hway : ∀ l, p.Enters m.disk.cwd l → ¬p.location m.disk.cwd <+: l)
    (hfiles : ∀ e ∈ files, (⟨e.path⟩ : Path).isPlain = true) (h : perform (stageFiles p files) m = (r, m')) :
    m'.disk.cwd = m.disk.cwd ∧ m'.disk.Clearable p name := by
  have htouches : (⟨files.map fun e => (p.join e.path).location m.disk.cwd, fun _ => True⟩ : Scope).Touches m.disk m'.disk := by
    have hconf : (⟨files.map fun e => (p.join e.path).location m.disk.cwd, fun _ => True⟩ : Scope).Confines m.disk.cwd
        (stageFiles p files) :=
      confines_stageFiles (fun _ => trivial) fun e he => ⟨_, List.mem_map_of_mem he, List.prefix_rfl⟩
    have hrun := hconf m rfl
    rw [h] at hrun
    exact hrun
  have hbelow : ∀ x, (⟨files.map fun e => (p.join e.path).location m.disk.cwd, fun _ => True⟩ : Scope).Inside x →
      ∃ rest, rest ≠ [] ∧ p.location m.disk.cwd ++ rest <+: x := by
    rintro x ⟨place, hplace, hpre⟩
    obtain ⟨e, he, rfl⟩ := List.mem_map.1 hplace
    obtain ⟨hrel, hdown⟩ := Path.isPlain_spec (hfiles e he)
    rw [Path.location_join hrel hdown] at hpre
    exact ⟨_, names_ne_nil_of_isPlain (hfiles e he), hpre⟩
  refine ⟨htouches.cwd_eq, hclear.of_spares hp htouches.spared (fun l hl hinside => ?_) fun hinside => ?_⟩
  · obtain ⟨rest, -, hpre⟩ := hbelow l hinside
    exact hway l hl ((List.prefix_append _ _).trans hpre)
  · obtain ⟨rest, hne, hpre⟩ := hbelow _ hinside
    have hlen := hpre.length_le
    rw [List.length_append] at hlen
    have hpos := List.length_pos_iff.2 hne
    omega

/-- What filling the staging directory of a target may touch. -/
def stageScope (cwd : Location) (p : Path) : Scope :=
  ⟨[(stagingDir p).location cwd], p.Enters cwd⟩

theorem holds_stageScope (hnames : p.names = before ++ [name]) (hne : name ≠ "..") (cwd : Location) :
    (stageScope cwd p).Holds cwd p :=
  ⟨⟨before, name, hnames, hne⟩, ⟨_, List.mem_singleton_self _, List.prefix_rfl⟩, fun _ hl => hl⟩

theorem cwd_of_openStage {r : Except LinkError Unit} (hnames : p.names = before ++ [name]) (hne : name ≠ "..")
    (h : perform (openStage (stagingDir p)) m = (r, m')) : m'.disk.cwd = m.disk.cwd := by
  have hrun := (holds_stageScope hnames hne m.disk.cwd).openStage m rfl
  rw [h] at hrun
  exact hrun.cwd_eq

section Fill

variable {files : List Emitted} (hnames : p.names = before ++ [name]) (hne : name ≠ "..")
  (hfiles : ∀ e ∈ files, (⟨e.path⟩ : Path).isPlain = true)

include hnames hne hfiles

/-- Filling a staging directory touches it and the way to it, whatever comes of it. -/
theorem touches_fill {r : Except LinkError Unit} (h : perform (fill p files) m = (r, m')) :
    (stageScope m.disk.cwd p).Touches m.disk m'.disk := by
  have hrun := (holds_stageScope hnames hne m.disk.cwd).fill hfiles m rfl
  rw [h] at hrun
  exact hrun

variable (hway : ∀ l, p.Enters m.disk.cwd l → ¬(stagingDir p).location m.disk.cwd <+: l)

include hway

/-- A staging directory that was filled can be cleared. -/
theorem clearable_of_fill (h : perform (fill p files) m = (.ok (), m')) : m'.disk.Clearable (stagingDir p) (stageName name) := by
  have hstage := endsIn_stagingDir hnames hne
  obtain ⟨_, m₁, hopen, hrest⟩ := perform_bind_ok h
  have hcwd := cwd_of_openStage hnames hne hopen
  refine (clearable_of_stageFiles hstage (clearable_of_openStage hstage hopen) ?_ hfiles (perform_of_discarding_ok hrest)).2
  rw [hcwd]
  exact fun l hl => hway l (enters_of_stagingDir hnames hne hl)

/-- Where filling a staging directory fails, none is left that was not there before. -/
theorem fill_error {e : LinkError} (h : perform (fill p files) m = (.error e, m')) :
    GoneOrKept ((stagingDir p).location m.disk.cwd) m.disk m'.disk := by
  have hstage := endsIn_stagingDir hnames hne
  have hway' : ∀ l, (stagingDir p).Enters m.disk.cwd l → ¬(stagingDir p).location m.disk.cwd <+: l :=
    fun l hl => hway l (enters_of_stagingDir hnames hne hl)
  rcases perform_bind_cases h with ⟨_, hopen, -⟩ | ⟨_, m₁, hopen, hrest⟩
  · exact openStage_error hstage hway' hopen
  · have hcwd := cwd_of_openStage hnames hne hopen
    obtain ⟨m₂, hrun, hend⟩ := perform_discarding hrest
    rw [← hcwd] at hway'
    obtain ⟨hcwd₂, hclear⟩ := clearable_of_stageFiles hstage (clearable_of_openStage hstage hopen) hway' hfiles hrun
    rcases hend with ⟨⟨_, hr⟩, -⟩ | ⟨-, hdisk⟩
    · nomatch hr
    · have hgone := hclear.at?_removeTree hstage
      rw [hcwd₂, hcwd, ← hdisk] at hgone
      exact Or.inl hgone

end Fill

end Output

/-! ## Where staging directories are -/

namespace Layout

theorem stageBeside_concat (front : Location) (name : String) :
    stageBeside (front ++ [name]) = front ++ [Output.stageName name] := by
  rw [stageBeside, List.dropLast_concat, List.getLast?_concat]
  rfl

/-- What is above a staging directory is above the directory it is beside. -/
theorem eq_or_prefix_of_prefix_stageBeside {x l : Location} (h : x <+: stageBeside l) : x = stageBeside l ∨ x <+: l := by
  rcases List.eq_nil_or_concat' l with rfl | ⟨front, name, rfl⟩
  · exact Or.inr h
  · rw [stageBeside_concat] at h ⊢
    exact (List.prefix_concat_iff.1 h).imp_right fun hpre => hpre.trans (List.prefix_append _ _)

theorem length_stageBeside (l : Location) : (stageBeside l).length = l.length := by
  rcases List.eq_nil_or_concat' l with rfl | ⟨front, name, rfl⟩
  · rfl
  · simp [stageBeside_concat]

/-- A staging directory and the directory it is beside are apart. -/
theorem apart_stageBeside_self {l : Location} (h : l ≠ []) : Apart (stageBeside l) l := by
  obtain ⟨front, name, rfl⟩ := (List.eq_nil_or_concat' l).resolve_left h
  have hne : front ++ [Output.stageName name] ≠ front ++ [name] := by
    intro he
    exact Output.stageName_ne name (by simpa using he.symm)
  rw [stageBeside_concat]
  exact ⟨fun hpre => hne (hpre.eq_of_length (by simp)), fun hpre => hne (hpre.eq_of_length (by simp)).symm⟩

/-- A staging directory is apart from a directory that is not inside it, if that one and the directory it is beside are one or
apart. -/
theorem apart_stageBeside {l l' : Location} (hne : l ≠ []) (hplaced : l = l' ∨ Apart l l') (hstage : ¬stageBeside l <+: l') :
    Apart (stageBeside l) l' := by
  rcases hplaced with rfl | hapart
  · exact apart_stageBeside_self hne
  · refine ⟨hstage, fun hpre => ?_⟩
    rcases eq_or_prefix_of_prefix_stageBeside hpre with heq | hpre
    · exact hstage (heq ▸ List.prefix_rfl)
    · exact hapart.2 hpre

/-- What is strictly above a directory is inside neither it nor its staging directory, nor inside another directory or the staging
directory of that one, if the two are one or apart. -/
theorem not_prefix_of_above {x l l' : Location} (habove : x <+: l ∧ x.length < l.length) (hplaced : l = l' ∨ Apart l l')
    (hstage : ¬stageBeside l' <+: l) : ¬l <+: x ∧ ¬stageBeside l <+: x ∧ ¬l' <+: x ∧ ¬stageBeside l' <+: x := by
  obtain ⟨hpre, hshort⟩ := habove
  have hself : ¬l <+: x := fun h => by
    have hlen := h.length_le
    omega
  have hbeside : ¬stageBeside l <+: x := fun h => by
    have hlen := h.length_le
    rw [length_stageBeside] at hlen
    omega
  refine ⟨hself, hbeside, fun h => ?_, fun h => hstage (h.trans hpre)⟩
  rcases hplaced with rfl | hapart
  · exact hself h
  · exact hapart.2 (h.trans hpre)

/-- The directories of a layout do not get in the way of each other: they are one, or neither is inside the other; neither is
inside the staging directory of the other; and their paths enter none of these four. -/
structure Unobstructed (l : Layout) (cwd : Location) : Prop where
  placed : l.publicDir.location cwd = l.privateDir.location cwd ∨ Apart (l.publicDir.location cwd) (l.privateDir.location cwd)
  publicStage : ¬stageBeside (l.publicDir.location cwd) <+: l.privateDir.location cwd
  privateStage : ¬stageBeside (l.privateDir.location cwd) <+: l.publicDir.location cwd
  way : ∀ x, l.publicDir.Enters cwd x ∨ l.privateDir.Enters cwd x → ¬(l.scope cwd).Inside x

namespace Unobstructed

variable {l : Layout} {cwd : Location} (h : l.Unobstructed cwd)

include h

/-- Neither path enters one of the four directories. -/
theorem not_prefix {x place : Location} (hx : l.publicDir.Enters cwd x ∨ l.privateDir.Enters cwd x)
    (hplace : place ∈ (l.scope cwd).places) : ¬place <+: x :=
  fun hpre => h.way x hx ⟨place, hplace, hpre⟩

/-- The two staging directories are one, or neither is inside the other. -/
theorem stages : stageBeside (l.publicDir.location cwd) = stageBeside (l.privateDir.location cwd) ∨
    Apart (stageBeside (l.publicDir.location cwd)) (stageBeside (l.privateDir.location cwd)) := by
  by_cases heq : stageBeside (l.publicDir.location cwd) = stageBeside (l.privateDir.location cwd)
  · exact Or.inl heq
  · refine Or.inr ⟨fun hpre => ?_, fun hpre => ?_⟩
    · exact (eq_or_prefix_of_prefix_stageBeside hpre).elim heq h.publicStage
    · exact (eq_or_prefix_of_prefix_stageBeside hpre).elim (fun he => heq he.symm) h.privateStage

end Unobstructed

end Layout

/-- A level path enters only what is strictly above its location. -/
theorem Path.Enters.above {p : Path} {cwd x : Location} (hlevel : IsLevel p.names) (h : p.Enters cwd x) :
    x <+: p.location cwd ∧ x.length < (p.location cwd).length := by
  obtain ⟨before, name, after, hnames, hname, hafter, rfl⟩ := h
  have hdown : ".." ∉ after := by
    rw [hnames] at hlevel
    exact hlevel.down_of_append hname
  have hlocation : p.location cwd = (before ++ [name]).foldl climb (p.start cwd) ++ after := by
    rw [Path.location, hnames, List.append_cons, List.foldl_append, foldl_climb_of_down hdown]
  have hpos := List.length_pos_iff.2 hafter
  rw [hlocation]
  refine ⟨List.prefix_append _ _, ?_⟩
  rw [List.length_append]
  omega

/-- Directories that are given by level paths do not get in the way of each other, if they are one or neither is inside the other,
and neither is inside the staging directory of the other. -/
theorem Layout.unobstructed_of_level {l : Layout} {cwd : Location} (hpublic : IsLevel l.publicDir.names)
    (hprivate : IsLevel l.privateDir.names)
    (hplaced : l.publicDir.location cwd = l.privateDir.location cwd ∨
      Apart (l.publicDir.location cwd) (l.privateDir.location cwd))
    (hstage : ¬stageBeside (l.publicDir.location cwd) <+: l.privateDir.location cwd)
    (hstage' : ¬stageBeside (l.privateDir.location cwd) <+: l.publicDir.location cwd) : l.Unobstructed cwd := by
  refine ⟨hplaced, hstage, hstage', fun x hx hinside => ?_⟩
  obtain ⟨place, hplace, hpre⟩ := hinside
  simp only [scope, List.mem_cons, List.not_mem_nil, or_false] at hplace
  rcases hx with hx | hx
  · obtain ⟨hself, hbeside, hother, hotherBeside⟩ := not_prefix_of_above (hx.above hpublic) hplaced hstage'
    rcases hplace with rfl | rfl | rfl | rfl
    · exact hself hpre
    · exact hbeside hpre
    · exact hother hpre
    · exact hotherBeside hpre
  · obtain ⟨hself, hbeside, hother, hotherBeside⟩ :=
      not_prefix_of_above (hx.above hprivate) (hplaced.imp Eq.symm Apart.symm) hstage
    rcases hplace with rfl | rfl | rfl | rfl
    · exact hother hpre
    · exact hotherBeside hpre
    · exact hself hpre
    · exact hbeside hpre

namespace Output

/-! ## Both stages -/

/-- All that is done before the first directory is replaced: the staging directories are filled. -/
def stageAll (l : Layout) (publics privates : List Emitted) : ExceptT LinkError (StateM Machine) Unit :=
  if l.shared then fill l.publicDir (publics ++ privates)
  else if privates.isEmpty then fill l.publicDir publics
  else do
    fill l.publicDir publics
    discarding (stagingDir l.publicDir) (fill l.privateDir privates)

/-- What is done once the staging directories are filled. -/
def swapAll (l : Layout) (privates : List Emitted) : ExceptT LinkError (StateM Machine) Unit :=
  if l.shared then commit l.publicDir
  else if privates.isEmpty then do
    commit l.publicDir
    onDisk l.privateDir (Host.clear l.privateDir)
  else do
    discarding (stagingDir l.privateDir) (commit l.publicDir)
    commit l.privateDir

theorem replace_eq (l : Layout) (publics privates : List Emitted) :
    (replace l publics privates : ExceptT LinkError (StateM Machine) Unit) =
      stageAll l publics privates >>= fun _ => swapAll l privates := by
  unfold replace stageAll swapAll
  split
  · rfl
  · split
    · rfl
    · rw [bind_assoc]
      rfl

/-- What filling both staging directories may touch. -/
def stagesScope (cwd : Location) (l : Layout) : Scope :=
  ⟨[Layout.stageBeside (l.publicDir.location cwd), Layout.stageBeside (l.privateDir.location cwd)],
    fun x => l.publicDir.Enters cwd x ∨ l.privateDir.Enters cwd x⟩

/-- What is left of a run that was given up: both directories are as they were, and no staging directory is left that was not there
before. -/
structure Abandoned (l : Layout) (d d' : Disk) : Prop where
  publicDir : d'.root.at? (l.publicDir.location d.cwd) = d.root.at? (l.publicDir.location d.cwd)
  privateDir : d'.root.at? (l.privateDir.location d.cwd) = d.root.at? (l.privateDir.location d.cwd)
  publicStage : GoneOrKept (Layout.stageBeside (l.publicDir.location d.cwd)) d d'
  privateStage : GoneOrKept (Layout.stageBeside (l.privateDir.location d.cwd)) d d'

section Stages

variable {l : Layout} {m m' : Machine} {publics privates : List Emitted} {before before' : List String} {name name' : String}
  (hpublic : l.publicDir.names = before ++ [name]) (hne : name ≠ "..")
  (hprivate : l.privateDir.names = before' ++ [name']) (hne' : name' ≠ "..")
  (hpublics : ∀ e ∈ publics, (⟨e.path⟩ : Path).isPlain = true) (hprivates : ∀ e ∈ privates, (⟨e.path⟩ : Path).isPlain = true)

include hpublic hne hprivate hne' hpublics hprivates in
/-- Filling the staging directories touches them and the ways to them, whatever comes of it. -/
theorem touches_stageAll {r : Except LinkError Unit} (h : perform (stageAll l publics privates) m = (r, m')) :
    (stagesScope m.disk.cwd l).Touches m.disk m'.disk := by
  have hfirst : (stagesScope m.disk.cwd l).Holds m.disk.cwd l.publicDir :=
    Layout.holds_of_stageBeside ⟨before, name, hpublic, hne⟩ (by simp [stagesScope]) fun x hx => Or.inl hx
  have hsecond : (stagesScope m.disk.cwd l).Holds m.disk.cwd l.privateDir :=
    Layout.holds_of_stageBeside ⟨before', name', hprivate, hne'⟩ (by simp [stagesScope]) fun x hx => Or.inr hx
  have hconf : (stagesScope m.disk.cwd l).Confines m.disk.cwd (stageAll l publics privates) := by
    unfold stageAll
    split
    · exact hfirst.fill fun e he => (List.mem_append.1 he).elim (hpublics e) (hprivates e)
    · split
      · exact hfirst.fill hpublics
      · exact (hfirst.fill hpublics).bind fun _ => (hsecond.fill hprivates).discarding hfirst.stage
  have hrun := hconf m rfl
  rw [h] at hrun
  exact hrun

variable (hl : l.Unobstructed m.disk.cwd)

include hpublic hne hpublics hl

/-- Filling the public staging directory keeps the private one, where the two are apart. -/
theorem privateStage_of_fill {r : Except LinkError Unit} (h : perform (fill l.publicDir publics) m = (r, m'))
    (hapart : Apart (Layout.stageBeside (l.publicDir.location m.disk.cwd)) (Layout.stageBeside (l.privateDir.location m.disk.cwd))) :
    m'.disk.root.at? (Layout.stageBeside (l.privateDir.location m.disk.cwd)) =
      m.disk.root.at? (Layout.stageBeside (l.privateDir.location m.disk.cwd)) := by
  refine (touches_fill hpublic hne hpublics h).at?_eq (List.forall_mem_singleton.2 ?_) fun x hx => ?_
  · rw [Layout.location_stagingDir_eq hpublic hne]
    exact hapart
  · exact hl.not_prefix (Or.inl hx) (by simp [Layout.scope])

/-- Where filling the public staging directory fails, no staging directory is left that was not there before. -/
theorem fill_public_error {e : LinkError} (h : perform (fill l.publicDir publics) m = (.error e, m')) :
    GoneOrKept (Layout.stageBeside (l.publicDir.location m.disk.cwd)) m.disk m'.disk ∧
      GoneOrKept (Layout.stageBeside (l.privateDir.location m.disk.cwd)) m.disk m'.disk := by
  have hfirst : GoneOrKept (Layout.stageBeside (l.publicDir.location m.disk.cwd)) m.disk m'.disk := by
    rw [← Layout.location_stagingDir_eq hpublic hne]
    refine fill_error hpublic hne hpublics (fun x hx => ?_) h
    rw [Layout.location_stagingDir_eq hpublic hne]
    exact hl.not_prefix (Or.inl hx) (by simp [Layout.scope])
  refine ⟨hfirst, ?_⟩
  rcases hl.stages with heq | hapart
  · rw [← heq]
    exact hfirst
  · exact Or.inr (privateStage_of_fill hpublic hne hpublics hl h hapart)

include hprivate hne' hprivates

/-- Where filling the private staging directory fails, the public one can still be cleared. -/
theorem clearable_of_second_error {m₁ m₂ : Machine} {e : LinkError} (hfirst : perform (fill l.publicDir publics) m = (.ok (), m₁))
    (hsecond : perform (fill l.privateDir privates) m₁ = (.error e, m₂)) :
    m₂.disk.cwd = m.disk.cwd ∧ m₂.disk.Clearable (stagingDir l.publicDir) (stageName name) ∧
      GoneOrKept (Layout.stageBeside (l.privateDir.location m.disk.cwd)) m₁.disk m₂.disk := by
  have hstage := endsIn_stagingDir hpublic hne
  have hcwd₁ := (touches_fill hpublic hne hpublics hfirst).cwd_eq
  have htouches := touches_fill hprivate hne' hprivates hsecond
  have hlocation := Layout.location_stagingDir_eq hpublic hne m.disk.cwd
  have hlocation' := Layout.location_stagingDir_eq hprivate hne' m.disk.cwd
  have hclear : m₁.disk.Clearable (stagingDir l.publicDir) (stageName name) := by
    refine clearable_of_fill hpublic hne hpublics (fun x hx => ?_) hfirst
    rw [hlocation]
    exact hl.not_prefix (Or.inl hx) (by simp [Layout.scope])
  have hgone : GoneOrKept (Layout.stageBeside (l.privateDir.location m.disk.cwd)) m₁.disk m₂.disk := by
    rw [← hlocation', ← hcwd₁]
    refine fill_error hprivate hne' hprivates (fun x hx => ?_) hsecond
    rw [hcwd₁] at hx ⊢
    rw [hlocation']
    exact hl.not_prefix (Or.inr hx) (by simp [Layout.scope])
  have henters : ∀ x, (stagingDir l.publicDir).Enters m₁.disk.cwd x → ¬(stageScope m₁.disk.cwd l.privateDir).Inside x := by
    rintro x hx ⟨place, hplace, hpre⟩
    rw [hcwd₁] at hx hplace
    rw [List.mem_singleton.1 hplace, hlocation'] at hpre
    exact hl.not_prefix (Or.inl (enters_of_stagingDir hpublic hne hx)) (by simp [Layout.scope]) hpre
  refine ⟨htouches.cwd_eq.trans hcwd₁, ?_, hgone⟩
  rcases hl.stages with heq | hapart
  · -- one staging directory: the failure removed it, or left it as the first filling did
    refine ⟨hclear.reaches.of_spares hstage htouches.spared henters, fun bytes hfile => ?_⟩
    rw [htouches.cwd_eq] at hfile
    rw [← heq, ← hlocation, ← hcwd₁] at hgone
    rcases hgone with hnone | hkept
    · rw [Node.view, hnone] at hfile
      cases hfile
    · rw [Node.view, hkept] at hfile
      exact hclear.noFile bytes hfile
  · refine hclear.of_spares hstage htouches.spared henters ?_
    rintro ⟨place, hplace, hpre⟩
    rw [hcwd₁] at hplace hpre
    rw [List.mem_singleton.1 hplace, hlocation', hlocation] at hpre
    exact hapart.2 hpre

/-- Where filling a staging directory fails, no staging directory is left that was not there before. -/
theorem stages_of_stageAll_error {e : LinkError} (h : perform (stageAll l publics privates) m = (.error e, m')) :
    GoneOrKept (Layout.stageBeside (l.publicDir.location m.disk.cwd)) m.disk m'.disk ∧
      GoneOrKept (Layout.stageBeside (l.privateDir.location m.disk.cwd)) m.disk m'.disk := by
  unfold stageAll at h
  split at h
  · exact fill_public_error hpublic hne (fun e he => (List.mem_append.1 he).elim (hpublics e) (hprivates e)) hl h
  split at h
  · exact fill_public_error hpublic hne hpublics hl h
  rcases perform_bind_cases h with ⟨_, hfirst, -⟩ | ⟨_, m₁, hfirst, hrest⟩
  · exact fill_public_error hpublic hne hpublics hl hfirst
  · obtain ⟨m₂, hsecond, hend⟩ := perform_discarding hrest
    rcases hend with ⟨⟨_, hr⟩, -⟩ | ⟨-, hdisk⟩
    · nomatch hr
    obtain ⟨hcwd, hclear, hgone⟩ := clearable_of_second_error hpublic hne hprivate hne' hpublics hprivates hl hfirst hsecond
    have hstage := endsIn_stagingDir hpublic hne
    have hnone := hclear.at?_removeTree hstage
    rw [← hdisk, hcwd, Layout.location_stagingDir_eq hpublic hne] at hnone
    refine ⟨Or.inl hnone, ?_⟩
    rcases hl.stages with heq | hapart
    · exact Or.inl (heq ▸ hnone)
    · have hkept := (confined_removeTree hstage m₂.disk).kept (Layout.stageBeside (l.privateDir.location m.disk.cwd))
        (List.forall_mem_singleton.2 (by rw [hcwd, Layout.location_stagingDir_eq hpublic hne]; exact hapart))
      rw [GoneOrKept, hdisk, hkept, ← privateStage_of_fill hpublic hne hpublics hl hfirst hapart]
      exact hgone

/-- Where filling the staging directories fails, the run is given up. -/
theorem abandoned_of_stageAll_error {e : LinkError} (h : perform (stageAll l publics privates) m = (.error e, m')) :
    Abandoned l m.disk m'.disk := by
  have htouches := touches_stageAll hpublic hne hprivate hne' hpublics hprivates h
  obtain ⟨hfirst, hsecond⟩ := stages_of_stageAll_error hpublic hne hprivate hne' hpublics hprivates hl h
  have hnil : l.publicDir.location m.disk.cwd ≠ [] := by
    rw [Path.location, hpublic, List.foldl_concat, climb, if_neg hne]
    simp
  have hnil' : l.privateDir.location m.disk.cwd ≠ [] := by
    rw [Path.location, hprivate, List.foldl_concat, climb, if_neg hne']
    simp
  refine ⟨htouches.at?_eq (fun place hplace => ?_) fun x hx => hl.not_prefix hx (by simp [Layout.scope]),
    htouches.at?_eq (fun place hplace => ?_) fun x hx => hl.not_prefix hx (by simp [Layout.scope]), hfirst, hsecond⟩
  · rcases List.mem_pair.1 hplace with rfl | rfl
    · exact Layout.apart_stageBeside_self hnil
    · exact Layout.apart_stageBeside hnil' (hl.placed.imp Eq.symm Apart.symm) hl.privateStage
  · rcases List.mem_pair.1 hplace with rfl | rfl
    · exact Layout.apart_stageBeside hnil hl.placed hl.publicStage
    · exact Layout.apart_stageBeside_self hnil'

end Stages

/-! ## Whole runs -/

variable {s : ArtifactSet} {mod : Module} {out : Path} {extra : Option Path} {l : Layout} {m m' : Machine}

/-- A file whose path leads out of its directory is noticed before anything is changed. -/
theorem produce_of_not_isPlain (h : ∃ f ∈ s.emitted, (⟨f.path⟩ : Path).isPlain = false) :
    ∃ e, perform (produce s mod out extra) m = (.error e, m) := by
  cases hresolve : Layout.resolve mod out extra with
  | error e =>
    refine ⟨e, ?_⟩
    rw [produce, perform_bind, perform_except, hresolve]
  | ok l =>
    cases hcheck : checkPaths s.emitted with
    | error e =>
      refine ⟨e, ?_⟩
      rw [produce, hresolve, perform_bind_of_ok (perform_except ..), perform_bind_of_ok (perform_lift ..), run_pathExists, hcheck,
        perform_bind, perform_except]
    | ok u =>
      obtain ⟨f, hf, hplain⟩ := h
      rw [checkPaths_eq_ok hcheck f hf] at hplain
      cases hplain

/-- Where filling the staging directories fails, so does the whole run, and nothing more is done. -/
theorem produce_of_stageAll_error {e : LinkError} (hresolve : Layout.resolve mod out extra = .ok l)
    (hplain : ∀ f ∈ s.emitted, (⟨f.path⟩ : Path).isPlain = true)
    (h : perform (stageAll l (s.emitted.filter (·.isPublic)) (s.emitted.filter fun f => !f.isPublic)) m = (.error e, m')) :
    perform (produce s mod out extra) m = (.error e, m') := by
  have hreplace : perform (replace l (s.emitted.filter (·.isPublic)) (s.emitted.filter fun f => !f.isPublic)) m =
      (.error e, m') := by
    rw [replace_eq, perform_bind, h]
  rw [produce, hresolve, perform_bind_of_ok (perform_except ..), perform_bind_of_ok (perform_lift ..), run_pathExists,
    checkPaths_of_isPlain hplain, perform_bind_of_ok (perform_except ..), perform_bind, hreplace]

end Output

/-- A run that fails before the first directory is replaced is given up without a trace. Where a file has a path that leads out of
its directory, nothing at all is changed. Where a staging directory cannot be opened or filled, both directories are as they were
and no staging directory is left that was not there before, if the directories do not get in the way of each other. -/
theorem produce_abandoned (s : ArtifactSet) (mod : Module) (out : Path) (extra : Option Path) (m : Machine) :
    ((∃ f ∈ s.emitted, (⟨f.path⟩ : Path).isPlain = false) → ∃ e, perform (Output.produce s mod out extra) m = (.error e, m)) ∧
      ∀ l, Layout.resolve mod out extra = .ok l → l.Unobstructed m.disk.cwd →
        (∀ f ∈ s.emitted, (⟨f.path⟩ : Path).isPlain = true) →
        ∀ e m', perform (Output.stageAll l (s.emitted.filter (·.isPublic)) (s.emitted.filter fun f => !f.isPublic)) m =
            (.error e, m') →
          perform (Output.produce s mod out extra) m = (.error e, m') ∧ Output.Abandoned l m.disk m'.disk := by
  refine ⟨Output.produce_of_not_isPlain, fun l hresolve hl hplain e m' h => ?_⟩
  obtain ⟨hpublic, hprivate⟩ := Layout.goesOn_of_resolve hresolve
  obtain ⟨before, name, hnames, hne⟩ := hpublic.exists_name
  obtain ⟨before', name', hnames', hne'⟩ := hprivate.exists_name
  refine ⟨Output.produce_of_stageAll_error hresolve hplain h, ?_⟩
  exact Output.abandoned_of_stageAll_error hnames hne hnames' hne' (fun f hf => hplain f (List.mem_filter.1 hf).1)
    (fun f hf => hplain f (List.mem_filter.1 hf).1) hl h

/-- Files of `page` of which two want one name, once for a file and once for a directory. -/
def clashingFiles : ArtifactSet :=
  .ofList [.emitted (.ofText "std" "new.js" "new"), .emitted (.privateText "std" "map" "map"),
    .emitted (.privateText "std" "map/symbols.txt" "map")]

/-- Files of `page` of which the second is to be written outside its directory. -/
def strayFiles : ArtifactSet :=
  .ofList [.emitted (.ofText "std" "new.js" "new"), .emitted (.privateText "std" "../symbols.txt" "map")]

/-- A machine where `page` was deployed before, next to a staging directory that was left. -/
def haltedMachine : Machine where
  disk := ⟨.directory [("out", .directory [("hello", .directory [("old.js", .file "old".toUTF8)]),
    (".hello.staging", .directory [("half.js", .file "half".toUTF8)])])], []⟩
  notes := []

/-- With an output directory for each kind of file, stray files change nothing, and clashing ones leave no trace. -/
theorem halted_abandoned :
    (∃ e, perform (Output.produce strayFiles page ⟨"out"⟩ (some ⟨"maps"⟩)) haltedMachine = (.error e, haltedMachine)) ∧
      (Layout.candidate page.deployTo ⟨"out"⟩ (some ⟨"maps"⟩)).Unobstructed haltedMachine.disk.cwd ∧
      ∃ m', perform (Output.produce clashingFiles page ⟨"out"⟩ (some ⟨"maps"⟩)) haltedMachine =
          (.error (.diskFailed ⟨"maps/.hello.staging/map"⟩ .exists), m') ∧
        Output.Abandoned (.candidate page.deployTo ⟨"out"⟩ (some ⟨"maps"⟩)) haltedMachine.disk m'.disk := by
  have hl : (Layout.candidate page.deployTo ⟨"out"⟩ (some ⟨"maps"⟩)).Unobstructed haltedMachine.disk.cwd :=
    Layout.unobstructed_of_level (by decide +kernel) (by decide +kernel) (by decide +kernel) (by decide +kernel)
      (by decide +kernel)
  have hfailed : (perform (Output.stageAll (.candidate page.deployTo ⟨"out"⟩ (some ⟨"maps"⟩))
      (clashingFiles.emitted.filter (·.isPublic)) (clashingFiles.emitted.filter fun f => !f.isPublic)) haltedMachine).1 =
        .error (.diskFailed ⟨"maps/.hello.staging/map"⟩ .exists) := by decide +kernel
  refine ⟨(produce_abandoned strayFiles page ⟨"out"⟩ (some ⟨"maps"⟩) haltedMachine).1 (by decide +kernel), hl, ?_⟩
  rcases hrun : perform (Output.stageAll (.candidate page.deployTo ⟨"out"⟩ (some ⟨"maps"⟩))
    (clashingFiles.emitted.filter (·.isPublic)) (clashingFiles.emitted.filter fun f => !f.isPublic)) haltedMachine with ⟨r, m'⟩
  rw [hrun] at hfailed
  obtain rfl : r = .error (.diskFailed ⟨"maps/.hello.staging/map"⟩ .exists) := hfailed
  exact ⟨m', (produce_abandoned clashingFiles page ⟨"out"⟩ (some ⟨"maps"⟩) haltedMachine).2 _ (by decide +kernel) hl
    (by decide +kernel) _ m' hrun⟩

/-- A machine with a file in its output directory, where nothing was deployed before. -/
def freshMachine : Machine where
  disk := ⟨.directory [("out", .directory [("x", .file "old".toUTF8)])], []⟩
  notes := []

/-- Neither directory is inside the staging directory of the other, and yet the runs leave traces. Where the private directory is
inside the public one, by a path that hides it, the public directory comes into being; where the path of the public directory
enters its staging directory, that is left. -/
theorem fresh_not_abandoned :
    (∃ l e, Layout.resolve page ⟨"out"⟩ (some ⟨"./out/hello"⟩) = .ok l ∧
      ¬Layout.stageBeside (l.publicDir.location []) <+: l.privateDir.location [] ∧
      ¬Layout.stageBeside (l.privateDir.location []) <+: l.publicDir.location [] ∧
      (perform (Output.produce clashingFiles page ⟨"out"⟩ (some ⟨"./out/hello"⟩)) freshMachine).1 = .error e ∧
      freshMachine.disk.exists? l.publicDir = false ∧
      (perform (Output.produce clashingFiles page ⟨"out"⟩ (some ⟨"./out/hello"⟩)) freshMachine).2.disk.exists? l.publicDir = true) ∧
    ∃ l e, Layout.resolve page ⟨"out/.hello.staging/../x/.."⟩ none = .ok l ∧
      ¬Layout.stageBeside (l.publicDir.location []) <+: l.privateDir.location [] ∧
      ¬Layout.stageBeside (l.privateDir.location []) <+: l.publicDir.location [] ∧
      (perform (Output.produce pageFiles page ⟨"out/.hello.staging/../x/.."⟩ none) freshMachine).1 = .error e ∧
      freshMachine.disk.exists? ⟨"out/.hello.staging"⟩ = false ∧
      (perform (Output.produce pageFiles page ⟨"out/.hello.staging/../x/.."⟩ none) freshMachine).2.disk.exists?
        ⟨"out/.hello.staging"⟩ = true :=
  ⟨⟨.candidate page.deployTo ⟨"out"⟩ (some ⟨"./out/hello"⟩), .diskFailed ⟨"./out/hello/.hello.staging/map"⟩ .exists,
      by decide +kernel⟩,
    .candidate page.deployTo ⟨"out/.hello.staging/../x/.."⟩ none,
    .diskFailed ⟨"out/.hello.staging/../x/../.hello.staging"⟩ .exists, by decide +kernel⟩

end DeferredBinding
