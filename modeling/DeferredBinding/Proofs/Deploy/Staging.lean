import DeferredBinding.Deploy.Output
import DeferredBinding.Proofs.Disk.Confined
import DeferredBinding.Proofs.Machine

/-!
# Staging directories

Filling the staging directory of a target is confined to it, whatever comes of it, and where it succeeds the staging directory is
there (`fill_spec`). A commit then puts it in the place of the target, unless that was no directory (`commit_cases`).
-/

namespace DeferredBinding

open Disk

variable {d d' : Disk} {m m' : Machine} {p q : Path} {name : String} {place : Location}

/-! ## Making directories -/

/-- A path on the way to another one. -/
def OnTheWay (p q : Path) : Prop :=
  q.isAbsolute = p.isAbsolute ∧ q.names <+: p.names

/-- Making a directory on the way to a path lets every place grow that is around or inside what the path leads to. -/
theorem grows_makeDirectory (place : Location) (hlevel : IsLevel p.names) (hq : OnTheWay p q)
    (hplace : place <+: p.location d.cwd ∨ p.location d.cwd <+: place) (h : d.makeDirectory q = .ok d') : Grows place d d' := by
  obtain ⟨spot, last, hwalk, hlast, -, hnone, rfl⟩ := makeDirectory_eq_ok h
  obtain ⟨hnames, hne⟩ := names_of_walk hwalk hlast
  have hpre := Path.location_isPrefix hlevel hq.1 hq.2 hnames hne d.cwd
  refine grows_update_empty hnone ?_
  rcases hplace with hplace | hplace
  · exact List.prefix_or_prefix_of_prefix hpre hplace
  · exact Or.inl (hpre.trans hplace)

/-- A directory that is made is found, if the ground of its path is a directory. -/
theorem isDirectory_of_makeDirectory (hp : p.Descends name) (hground : d.Grounded p)
    (h : d.makeDirectory p = .ok d') : d'.isDirectory p = true := by
  have hgrows := grows_makeDirectory (p.location d.cwd) hp.level ⟨rfl, List.prefix_rfl⟩ (Or.inl List.prefix_rfl) h
  obtain ⟨spot, last, hwalk, hlast, hshort, hnone, rfl⟩ := makeDirectory_eq_ok h
  have hdir := dirAt_of_walk hp.level hwalk hlast hground
  obtain rfl := walk_eq_of_endsIn hp.ends hwalk
  obtain rfl : name = last := Last.name.inj hlast
  have hreach : d.Reaches p name := ⟨hwalk, hshort⟩
  refine (isDirectory_iff hp.ends).2 ⟨hreach.mono hp rfl fun l _ => hgrows.all l, [], ?_⟩
  change (d.update (p.location d.cwd) (some .empty)).root.at? (p.location d.cwd) = _
  rw [hp.ends.location_eq d.cwd]
  exact at?_update_concat hdir name _

/-- One attempt at making a directory: it is made, or nothing is changed and it counts as made only where it is one already. -/
def Attempted (p : Path) (m : Machine) (r : Except Refusal Unit) (m' : Machine) : Prop :=
  (∃ disk, m.disk.makeDirectory p = .ok disk ∧ r = .ok () ∧ m' = { m with disk }) ∨
    m' = m ∧ (r = .ok () → m.disk.isDirectory p = true)

/-- A directory is attempted at once, or after those around it. -/
theorem makeDirectoriesOf_cons {m m' : Machine} {r : Except Refusal Unit} {p : Path} (hp : p.text ≠ "") {outer : List Path}
    (h : (Host.makeDirectoriesOf (p :: outer) : StateM Machine (Except Refusal Unit)).run m = (r, m')) :
    Attempted p m r m' ∨
      ∃ r₁ m₁, (Host.makeDirectoriesOf outer : StateM Machine (Except Refusal Unit)).run m = (r₁, m₁) ∧
        Attempted p m₁ r m' := by
  have hrefused : ∀ (e : Refusal) (s : Machine),
      (do if ← Host.isDirectory p then return .ok () else return .error e : StateM Machine (Except Refusal Unit)).run s =
        (r, m') → Attempted p s r m' := by
    intro e s hs
    rw [run_bind, run_isDirectory] at hs
    cases hdir : s.disk.isDirectory p with
    | true =>
      rw [hdir] at hs
      obtain ⟨rfl, rfl⟩ := Prod.mk.inj hs
      exact Or.inr ⟨rfl, fun _ => hdir⟩
    | false =>
      rw [hdir] at hs
      obtain ⟨rfl, rfl⟩ := Prod.mk.inj hs
      exact Or.inr ⟨rfl, fun he => nomatch he⟩
  rw [Host.makeDirectoriesOf, if_neg (mt beq_iff_eq.1 hp)] at h
  cases hmake : m.disk.makeDirectory p with
  | ok disk =>
    rw [run_bind_of_eq (run_makeDirectory_of_ok hmake)] at h
    obtain ⟨rfl, rfl⟩ := Prod.mk.inj h
    exact Or.inl (Or.inl ⟨disk, hmake, rfl, rfl⟩)
  | error e =>
    rw [run_bind_of_eq (run_makeDirectory_of_error hmake)] at h
    by_cases he : e = .notFound
    · subst he
      obtain ⟨r₁, m₁, h₁⟩ : ∃ r₁ m₁, (Host.makeDirectoriesOf outer : StateM Machine (Except Refusal Unit)).run m = (r₁, m₁) :=
        ⟨_, _, rfl⟩
      refine Or.inr ⟨r₁, m₁, h₁, ?_⟩
      rw [run_bind_of_eq h₁] at h
      cases r₁ with
      | error e =>
        obtain ⟨rfl, rfl⟩ := Prod.mk.inj h
        exact Or.inr ⟨rfl, fun he => nomatch he⟩
      | ok u =>
        dsimp only at h
        cases hmake' : m₁.disk.makeDirectory p with
        | ok disk =>
          rw [run_bind_of_eq (run_makeDirectory_of_ok hmake')] at h
          obtain ⟨rfl, rfl⟩ := Prod.mk.inj h
          exact Or.inl ⟨disk, hmake', rfl, rfl⟩
        | error e =>
          rw [run_bind_of_eq (run_makeDirectory_of_error hmake')] at h
          exact hrefused e m₁ h
    · left
      refine hrefused e m ?_
      rw [← h]
      cases e <;> first | exact absurd rfl he | rfl

/-- What each making of a directory does to a disk, attempts at making several do. -/
theorem makeDirectoriesOf_induction {R : Disk → Disk → Prop} (hrefl : ∀ d, R d d)
    (htrans : ∀ {d₁ d₂ d₃}, R d₁ d₂ → R d₂ d₃ → R d₁ d₃) {r : Except Refusal Unit} {ps : List Path}
    (hone : ∀ q ∈ ps, ∀ d d' : Disk, d.cwd = m.disk.cwd → d.makeDirectory q = .ok d' → R d d')
    (h : (Host.makeDirectoriesOf ps : StateM Machine (Except Refusal Unit)).run m = (r, m')) :
    R m.disk m'.disk ∧ m'.disk.cwd = m.disk.cwd := by
  induction ps generalizing r m' with
  | nil =>
    obtain ⟨rfl, rfl⟩ := Prod.mk.inj h
    exact ⟨hrefl _, rfl⟩
  | cons q outer ih =>
    have hattempt : ∀ {r : Except Refusal Unit} {m₁ : Machine}, m₁.disk.cwd = m.disk.cwd → Attempted q m₁ r m' →
        R m₁.disk m'.disk ∧ m'.disk.cwd = m₁.disk.cwd := by
      rintro r m₁ hcwd (⟨disk, hmake, -, rfl⟩ | ⟨rfl, -⟩)
      · obtain ⟨_, _, -, -, -, -, rfl⟩ := makeDirectory_eq_ok hmake
        exact ⟨hone q (List.mem_cons_self ..) _ _ hcwd hmake, rfl⟩
      · exact ⟨hrefl _, rfl⟩
    by_cases hempty : q.text = ""
    · rw [Host.makeDirectoriesOf, if_pos (beq_iff_eq.2 hempty)] at h
      obtain ⟨rfl, rfl⟩ := Prod.mk.inj h
      exact ⟨hrefl _, rfl⟩
    · rcases makeDirectoriesOf_cons hempty h with hnow | ⟨r₁, m₁, houter, hthen⟩
      · exact hattempt rfl hnow
      · obtain ⟨hbefore, hcwd⟩ := ih (fun q hq => hone q (List.mem_cons_of_mem _ hq)) houter
        obtain ⟨hlast, hcwd'⟩ := hattempt hcwd hthen
        exact ⟨htrans hbefore hlast, hcwd'.trans hcwd⟩

/-- Making the directories on the way to a path lets every place grow that is around or inside what the path leads to. -/
theorem grows_makeDirectoriesOf {r : Except Refusal Unit} {ps : List Path} (place : Location) (hlevel : IsLevel p.names)
    (hps : ∀ q ∈ ps, OnTheWay p q) (hplace : place <+: p.location m.disk.cwd ∨ p.location m.disk.cwd <+: place)
    (h : (Host.makeDirectoriesOf ps : StateM Machine (Except Refusal Unit)).run m = (r, m')) : Grows place m.disk m'.disk :=
  (makeDirectoriesOf_induction (.refl place) .trans
    (fun q hq _ _ hcwd => grows_makeDirectory place hlevel (hps q hq) (hcwd ▸ hplace)) h).1

/-- Making directories, whatever their paths, leaves all directories. -/
theorem grows_root_makeDirectories {r : Except Refusal Unit}
    (h : (Host.makeDirectories p : StateM Machine (Except Refusal Unit)).run m = (r, m')) : Grows [] m.disk m'.disk := by
  refine (makeDirectoriesOf_induction (.refl []) .trans (fun q _ d d' _ hmake => ?_) h).1
  obtain ⟨spot, last, -, -, -, hnone, rfl⟩ := makeDirectory_eq_ok hmake
  exact grows_update_empty hnone (Or.inr List.nil_prefix)

/-- A directory that is made with those around it is found, if the ground of its path is a directory. -/
theorem isDirectory_of_makeDirectories (hp : p.Descends name) (hground : m.disk.Grounded p)
    (h : (Host.makeDirectories p : StateM Machine (Except Refusal Unit)).run m = (.ok (), m')) :
    m'.disk.isDirectory p = true := by
  have hattempt : ∀ {m : Machine}, m.disk.Grounded p → Attempted p m (.ok ()) m' →
      m'.disk.isDirectory p = true := by
    rintro m hground (⟨disk, hmake, -, rfl⟩ | ⟨rfl, hdir⟩)
    · exact isDirectory_of_makeDirectory hp hground hmake
    · exact hdir rfl
  obtain ⟨outer, houter⟩ := p.exists_ancestors_eq_cons
  rw [Host.makeDirectories, houter] at h
  rcases makeDirectoriesOf_cons hp.ends.text_ne h with hnow | ⟨r₁, m₁, hrun, hthen⟩
  · exact hattempt hground hnow
  · have hgrows := grows_makeDirectoriesOf (p.location m.disk.cwd) hp.level
      (fun q hq => Path.of_mem_ancestors (houter ▸ List.mem_cons_of_mem _ hq)) (Or.inl List.prefix_rfl) hrun
    refine hattempt ?_ hthen
    rw [Grounded, hgrows.cwd]
    exact hgrows.all _ hground

/-! ## Clearing -/

/-- Clearing changes the disk as removing does. -/
theorem exists_run_clear (m : Machine) (p : Path) :
    ∃ r m₁, (Host.clear p : StateM Machine (Except Refusal Unit)).run m = (r, m₁) ∧ m₁.disk = (m.disk.removeTree p).2 := by
  rw [Host.clear, run_bind, run_removeTree]
  dsimp only
  split
  · exact ⟨_, _, rfl, rfl⟩
  · exact ⟨_, _, rfl, rfl⟩

/-- A directory can be cleared. -/
theorem run_clear_of_isDirectory (hp : p.EndsIn name) (h : m.disk.isDirectory p = true) :
    (Host.clear p : StateM Machine (Except Refusal Unit)).run m =
      (.ok (), { m with disk := m.disk.update (p.location m.disk.cwd) none }) := by
  rw [Host.clear, run_bind, run_removeTree, removeTree_of_isDirectory hp h]
  rfl

/-- Clearing what is no directory changes nothing. -/
theorem exists_run_clear_of_not_isDirectory (h : m.disk.isDirectory p = false) :
    ∃ r, (Host.clear p : StateM Machine (Except Refusal Unit)).run m = (r, m) := by
  obtain ⟨e, he⟩ := removeTree_of_not_isDirectory h
  rw [Host.clear, run_bind, run_removeTree, he]
  dsimp only
  split
  · exact ⟨_, rfl⟩
  · exact ⟨_, rfl⟩

namespace Output

/-! ## Where the staging directory is -/

/-- The name of the staging directory of a directory with a name. -/
def stageName (name : String) : String :=
  "." ++ name ++ ".staging"

theorem length_stageName (name : String) : (stageName name).length = name.length + 9 := by
  rw [stageName, String.length_append, String.length_append]
  change 1 + name.length + 8 = _
  omega

/-- Different directories in one place have different staging directories. -/
theorem stageName_inj {name name' : String} (h : stageName name = stageName name') : name = name' := by
  rw [← String.toList_inj] at h ⊢
  simpa [stageName] using h

theorem stageName_ne (name : String) : name ≠ stageName name := by
  intro h
  have hlen := congrArg String.length h
  rw [length_stageName] at hlen
  omega

/-- The name of a staging directory is a name. -/
theorem endsIn_stageName (h : '/' ∉ name.toList) : (⟨stageName name⟩ : Path).EndsIn (stageName name) := by
  have hne : ∀ s : String, s.length < 9 → stageName name ≠ s := by
    rintro s hs rfl
    rw [length_stageName] at hs
    omega
  have hslash : '/' ∉ (stageName name).toList := by simp [stageName, h]
  refine ⟨?_, ?_, hne _ (by decide)⟩
  · rw [Path.pieces_of_not_mem hslash]
    rfl
  · rw [Path.isIdle, Bool.or_eq_false_iff, beq_eq_false_iff_ne, beq_eq_false_iff_ne]
    exact ⟨hne _ (by decide), hne _ (by decide)⟩

theorem isAbsolute_stageName (name : String) : (⟨stageName name⟩ : Path).isAbsolute = false := by
  simp [Path.isAbsolute, stageName]

/-- The name of a staging directory is the only name of its text. -/
theorem names_stageName (h : '/' ∉ name.toList) : (⟨stageName name⟩ : Path).names = [stageName name] := by
  rw [Path.names, Path.pieces_of_not_mem (by simp [stageName, h]), List.filter_cons, (endsIn_stageName h).2.1]
  rfl

/-- The staging directory of a directory is in the one above. -/
theorem exists_stagingDir_eq {before : List String} (h : p.names = before ++ [name]) (hne : name ≠ "..") :
    ∃ parent : Path, stagingDir p = parent.join (stageName name) ∧ parent.isAbsolute = p.isAbsolute ∧ parent.names = before := by
  obtain ⟨parent, hparent⟩ := Path.exists_parent? (p := p) (by simp [h])
  obtain ⟨habs, hnames⟩ := Path.parent?_eq_some hparent
  refine ⟨parent, ?_, habs, by rw [hnames, h, List.dropLast_concat]⟩
  rw [stagingDir, hparent, Path.fileName?_of_names h hne]
  rfl

/-- A staging directory starts where its directory starts, and leads along the same names but the last. -/
theorem names_stagingDir {before : List String} (h : p.names = before ++ [name]) (hne : name ≠ "..") :
    (stagingDir p).isAbsolute = p.isAbsolute ∧ (stagingDir p).names = before ++ [stageName name] := by
  obtain ⟨parent, hstage, habs, hnames⟩ := exists_stagingDir_eq h hne
  have hslash : '/' ∉ name.toList := by
    have hmem : name ∈ p.names := by simp [h]
    exact Path.not_mem_of_mem_pieces (List.mem_filter.1 hmem).1
  have hrel := isAbsolute_stageName name
  rw [hstage, Path.isAbsolute_join parent hrel, Path.names_join parent hrel, names_stageName hslash, hnames]
  exact ⟨habs, rfl⟩

/-- The staging directory of a directory is next to it. -/
theorem location_stagingDir {before : List String} (h : p.names = before ++ [name]) (hne : name ≠ "..") (cwd : Location) :
    (stagingDir p).location cwd = (p.location cwd).dropLast ++ [stageName name] := by
  obtain ⟨habs, hnames⟩ := names_stagingDir h hne
  have hstage : stageName name ≠ ".." := by
    intro he
    have hlen := congrArg String.length he
    rw [length_stageName] at hlen
    change name.length + 9 = 2 at hlen
    omega
  rw [Path.location, Path.location, hnames, h, List.foldl_concat, List.foldl_concat, climb, climb, if_neg hstage, if_neg hne,
    List.dropLast_concat, Path.start, Path.start, habs]

/-- The staging directory of a level directory that ends in a name is one. -/
theorem stagingDir_spec (hp : p.Descends name) :
    (stagingDir p).Descends (stageName name) ∧
      ∀ cwd, (stagingDir p).location cwd = (p.location cwd).dropLast ++ [stageName name] := by
  have hlast := hp.ends.names_eq
  have hslash : '/' ∉ name.toList := Path.not_mem_of_mem_pieces (List.mem_of_getLast? hp.ends.1)
  have hends := endsIn_stageName hslash
  obtain ⟨parent, hstage, -, -⟩ := exists_stagingDir_eq hlast hp.ends.2.2
  refine ⟨⟨hstage ▸ hends.join parent (isAbsolute_stageName name), ?_⟩, location_stagingDir hlast hp.ends.2.2⟩
  have hlevel := hp.level
  rw [hlast] at hlevel
  rw [(names_stagingDir hlast hp.ends.2.2).2]
  refine hlevel.of_append.append ?_
  rw [List.mem_singleton]
  exact hends.2.2.symm

/-! ## Filling -/

/-- A step on the disk fails with the path that it concerns. -/
theorem perform_onDisk {x : StateM Machine (Except Refusal Unit)} {r : Except Refusal Unit} (h : x.run m = (r, m')) (p : Path) :
    perform (onDisk p x) m = (r.mapError (LinkError.diskFailed p), m') := by
  rw [onDisk, perform_bind, perform_lift, h]
  cases r with
  | ok u => rfl
  | error e => rfl

theorem run_of_onDisk_ok {x : StateM Machine (Except Refusal Unit)} (h : perform (onDisk p x) m = (.ok (), m')) :
    x.run m = (.ok (), m') := by
  rcases hx : x.run m with ⟨r, m₁⟩
  rw [perform_onDisk hx] at h
  obtain ⟨hr, rfl⟩ := Prod.mk.inj h
  cases r with
  | ok u => rfl
  | error e => cases hr

/-- What a step comes to behind which a staging directory is discarded. -/
theorem perform_discarding {α : Type} {x : ExceptT LinkError (StateM Machine) α} {r : Except LinkError α} {stage : Path}
    (h : perform (discarding stage x) m = (r, m')) :
    ∃ m₁, perform x m = (r, m₁) ∧
      ((∃ a, r = .ok a) ∧ m' = m₁ ∨ (∃ e, r = .error e) ∧ m'.disk = (m₁.disk.removeTree stage).2) := by
  rw [discarding, perform_tryCatch] at h
  split at h
  · rename_i a m₁ hx
    obtain ⟨rfl, rfl⟩ := Prod.mk.inj h
    exact ⟨m₁, hx, Or.inl ⟨⟨a, rfl⟩, rfl⟩⟩
  · rename_i e m₁ hx
    obtain ⟨rfl, rfl⟩ := Prod.mk.inj h
    exact ⟨m₁, hx, Or.inr ⟨⟨e, rfl⟩, rfl⟩⟩

/-- A step that succeeds discards nothing. -/
theorem perform_of_discarding_ok {α : Type} {x : ExceptT LinkError (StateM Machine) α} {a : α} {stage : Path}
    (h : perform (discarding stage x) m = (.ok a, m')) : perform x m = (.ok a, m') := by
  obtain ⟨m₁, hx, hend⟩ := perform_discarding h
  rcases hend with ⟨-, rfl⟩ | ⟨⟨e, hr⟩, -⟩
  · exact hx
  · nomatch hr

/-- Opening a stage is confined to it, and where it succeeds the stage is there. -/
theorem openStage_spec {r : Except LinkError Unit} (hp : p.Descends name) (h : perform (openStage p) m = (r, m')) :
    Confined [p.location m.disk.cwd] m.disk m'.disk ∧
      (m.disk.Grounded p → r = .ok () → m'.disk.isDirectory p = true) := by
  obtain ⟨r₁, m₁, hclear, hdisk⟩ := exists_run_clear m p
  have hconf := confined_removeTree hp.ends m.disk
  rw [← hdisk] at hconf
  rcases perform_bind_cases h with ⟨e, hx, rfl⟩ | ⟨_, _, hx, hmake⟩
  · rw [perform_onDisk hclear] at hx
    obtain ⟨-, rfl⟩ := Prod.mk.inj hx
    exact ⟨hconf, fun _ hr => nomatch hr⟩
  · rw [perform_onDisk hclear] at hx
    obtain ⟨-, rfl⟩ := Prod.mk.inj hx
    obtain ⟨r₂, m₂, hrun⟩ : ∃ r₂ m₂, (Host.makeDirectories p : StateM Machine (Except Refusal Unit)).run m₁ = (r₂, m₂) :=
      ⟨_, _, rfl⟩
    rw [perform_onDisk hrun] at hmake
    obtain ⟨rfl, rfl⟩ := Prod.mk.inj hmake
    have hgrows := grows_makeDirectoriesOf (p.location m.disk.cwd) hp.level
      (fun q hq => Path.of_mem_ancestors hq) (Or.inl (hconf.cwd ▸ List.prefix_rfl)) hrun
    refine ⟨hconf.trans hgrows.toConfined, fun hground hr => ?_⟩
    obtain ⟨u, rfl⟩ : ∃ u, r₂ = .ok u := by
      cases r₂ with
      | ok u => exact ⟨u, rfl⟩
      | error e => nomatch hr
    refine isDirectory_of_makeDirectories hp (hconf.grounded hp hground ?_) hrun
    exact List.forall_mem_singleton.2 (hp.ends.not_prefix_dropLast m.disk.cwd)

/-- Writing a file into a stage lets it grow, whatever comes of it. -/
theorem grows_stageFile {r : Except LinkError Unit} (hp : p.Descends name) {e : Emitted} (he : (⟨e.path⟩ : Path).isPlain = true)
    (h : perform (stageFile p e) m = (r, m')) : Grows (p.location m.disk.cwd) m.disk m'.disk := by
  obtain ⟨hrel, hdown⟩ := Path.isPlain_spec he
  have hlevel : IsLevel (p.join e.path).names := by
    rw [Path.names_join p hrel]
    exact hp.level.append hdown
  have hplace : ∀ cwd, p.location cwd <+: (p.join e.path).location cwd := by
    intro cwd
    rw [Path.location_join hrel hdown]
    exact List.prefix_append _ _
  have hwrite : ∀ {s : Machine}, perform (do
      onDisk (p.join e.path) (Host.write (p.join e.path) e.contents)
      (Host.log ⟨.debug, origin, "Staged " ++ e.path ++ " from " ++ e.producer⟩ : StateM Machine Unit)) s = (r, m') →
      Grows (p.location s.disk.cwd) s.disk m'.disk := by
    intro s hs
    cases hw : s.disk.write (p.join e.path) e.contents with
    | error e' =>
      have hrun := perform_onDisk (run_change_of_error (f := (·.write (p.join e.path) e.contents)) hw) (p.join e.path)
      rcases perform_bind_cases hs with ⟨_, hx, -⟩ | ⟨_, _, hx, -⟩
      · obtain ⟨-, rfl⟩ := Prod.mk.inj (hrun.symm.trans hx)
        exact .refl _ _
      · nomatch hrun.symm.trans hx
    | ok disk =>
      have hrun := perform_onDisk (run_change_of_ok (f := (·.write (p.join e.path) e.contents)) hw) (p.join e.path)
      rcases perform_bind_cases hs with ⟨_, hx, -⟩ | ⟨_, s', hx, hlog⟩
      · nomatch hrun.symm.trans hx
      · obtain ⟨-, rfl⟩ := Prod.mk.inj (hrun.symm.trans hx)
        obtain ⟨-, rfl⟩ := Prod.mk.inj hlog
        obtain ⟨hdir, rfl⟩ := write_eq_ok hw
        exact grows_update_file hdir (hplace s.disk.cwd)
  unfold stageFile at h
  dsimp only at h
  split at h
  · rename_i parent hparent
    obtain ⟨habs, hnames⟩ := Path.parent?_eq_some hparent
    obtain ⟨r₁, m₁, hrun⟩ : ∃ r₁ m₁, (Host.makeDirectories parent : StateM Machine (Except Refusal Unit)).run m = (r₁, m₁) :=
      ⟨_, _, rfl⟩
    have hgrows := grows_makeDirectoriesOf (p := p.join e.path) (p.location m.disk.cwd) hlevel (fun q hq => by
      obtain ⟨habs', hpre⟩ := Path.of_mem_ancestors hq
      exact ⟨habs'.trans habs, hpre.trans (hnames ▸ List.dropLast_prefix _)⟩) (Or.inl (hplace m.disk.cwd)) hrun
    rcases perform_bind_cases h with ⟨_, hx, -⟩ | ⟨_, s', hx, hrest⟩
    · obtain ⟨-, rfl⟩ := Prod.mk.inj ((perform_onDisk hrun parent).symm.trans hx)
      exact hgrows
    · obtain ⟨-, rfl⟩ := Prod.mk.inj ((perform_onDisk hrun parent).symm.trans hx)
      have hthen := hwrite hrest
      rw [hgrows.cwd] at hthen
      exact hgrows.trans hthen
  · exact hwrite h

/-- Writing files into a stage lets it grow, whatever comes of it. -/
theorem grows_stageFiles {r : Except LinkError Unit} (hp : p.Descends name) {files : List Emitted}
    (hfiles : ∀ e ∈ files, (⟨e.path⟩ : Path).isPlain = true) (h : perform (stageFiles p files) m = (r, m')) :
    Grows (p.location m.disk.cwd) m.disk m'.disk := by
  induction files generalizing m with
  | nil =>
    obtain ⟨-, rfl⟩ := Prod.mk.inj h
    exact .refl _ _
  | cons e files ih =>
    have he := hfiles e (List.mem_cons_self ..)
    rcases perform_bind_cases h with ⟨_, hx, -⟩ | ⟨_, m₁, hx, hrest⟩
    · exact grows_stageFile hp he hx
    · have hfirst := grows_stageFile hp he hx
      have hthen := ih (fun e he => hfiles e (List.mem_cons_of_mem _ he)) hrest
      rw [hfirst.cwd] at hthen
      exact hfirst.trans hthen

/-- Filling the staging directory of a target is confined to it, and where it succeeds the staging directory is there. -/
theorem fill_spec {r : Except LinkError Unit} (hp : p.Descends name) {files : List Emitted}
    (hfiles : ∀ e ∈ files, (⟨e.path⟩ : Path).isPlain = true) (h : perform (fill p files) m = (r, m')) :
    Confined [(stagingDir p).location m.disk.cwd] m.disk m'.disk ∧
      (m.disk.Grounded (stagingDir p) → r = .ok () → m'.disk.isDirectory (stagingDir p) = true) := by
  have hstage := (stagingDir_spec hp).1
  rcases perform_bind_cases h with ⟨e, hopen, rfl⟩ | ⟨_, m₁, hopen, hrest⟩
  · exact ⟨(openStage_spec hstage hopen).1, fun _ hr => nomatch hr⟩
  · obtain ⟨hconf, hdir⟩ := openStage_spec hstage hopen
    obtain ⟨m₂, hfill, hend⟩ := perform_discarding hrest
    have hgrows := grows_stageFiles hstage hfiles hfill
    have hconf₂ := hconf.trans (hconf.cwd ▸ hgrows.toConfined)
    rcases hend with ⟨-, rfl⟩ | ⟨⟨e, rfl⟩, hdisk⟩
    · exact ⟨hconf₂, fun hground _ => hgrows.isDirectory hstage (hdir hground rfl)⟩
    · have hremoved := confined_removeTree hstage.ends m₂.disk
      rw [← hdisk, hconf₂.cwd] at hremoved
      exact ⟨hconf₂.trans hremoved, fun _ hr => nomatch hr⟩

/-! ## Committing -/

/-- A directory and its staging directory are apart. -/
theorem apart_stagingDir (hp : p.Descends name) (cwd : Location) : Apart ((stagingDir p).location cwd) (p.location cwd) := by
  rw [(stagingDir_spec hp).2, hp.ends.location_eq_concat, List.dropLast_concat]
  constructor
  · intro hpre
    exact stageName_ne name (by simpa using (hpre.eq_of_length (by simp)).symm)
  · intro hpre
    exact stageName_ne name (by simpa using hpre.eq_of_length (by simp))

/-- A staging directory is not above the directory that holds it and its target. -/
theorem not_prefix_of_stagingDir (hp : p.Descends name) (cwd : Location) :
    ¬(stagingDir p).location cwd <+: (p.location cwd).dropLast := by
  have hnot := (stagingDir_spec hp).1.ends.not_prefix_dropLast cwd
  rwa [(stagingDir_spec hp).2, List.dropLast_concat, ← (stagingDir_spec hp).2] at hnot

/-- A staging directory that is moved to its target is found there, and all else is kept. -/
theorem moved_spec (hp : p.Descends name) (hreach : d.Reaches p name) (hdir : d.DirAt (p.location d.cwd).dropLast) (node : Node) :
    Confined [(stagingDir p).location d.cwd, p.location d.cwd] d
        ((d.update ((stagingDir p).location d.cwd) none).update (p.location d.cwd) (some node)) ∧
      ((d.update ((stagingDir p).location d.cwd) none).update (p.location d.cwd) (some node)).tree p = some node := by
  have htaken := confined_update d ((stagingDir p).location d.cwd) none
  generalize d.update ((stagingDir p).location d.cwd) none = d₁ at htaken
  have hput := confined_update d₁ (p.location d.cwd) (some node)
  refine ⟨(htaken.mono (by simp)).trans (hput.mono (by simp)), ?_⟩
  have hout : ∀ s ∈ [(stagingDir p).location d.cwd], ¬s <+: (p.location d.cwd).dropLast :=
    List.forall_mem_singleton.2 (not_prefix_of_stagingDir hp d.cwd)
  have htree := tree_update hp (htaken.reaches hp hreach hout) (htaken.cwd.symm ▸ htaken.dirs _ hout hdir) node
  rwa [htaken.cwd] at htree

/-- A staging directory that is renamed to its target is found there, and all else is kept. -/
theorem rename_stagingDir (hp : p.Descends name) (h : d.rename (stagingDir p) p = .ok d') :
    ∃ node, d.tree (stagingDir p) = some node ∧
      Confined [(stagingDir p).location d.cwd, p.location d.cwd] d d' ∧ d'.tree p = some node := by
  have hstage := (stagingDir_spec hp).1
  obtain ⟨node, htree, hreach, rfl⟩ := rename_eq_ok hstage.ends hp.ends (apart_stagingDir hp d.cwd).1 h
  have hat := ((tree_eq_some_iff hstage.ends).1 htree).2
  rw [(stagingDir_spec hp).2] at hat
  exact ⟨node, htree, moved_spec hp hreach (Node.isDirAt_of_at?_append hat) node⟩

/-- Nothing is lost by removing a target: where it is a directory, its staging directory is there. -/
def Staged (d : Disk) (p : Path) : Prop :=
  d.isDirectory p = true → d.isDirectory (stagingDir p) = true

/-- A target is staged by a successful filling. -/
theorem staged_of_fill (hp : p.Descends name) {files : List Emitted} (hfiles : ∀ e ∈ files, (⟨e.path⟩ : Path).isPlain = true)
    (h : perform (fill p files) m = (.ok (), m')) : Staged m'.disk p := by
  intro hdir
  obtain ⟨hconf, hstaged⟩ := fill_spec hp hfiles h
  have htree := hconf.tree_eq hp (List.forall_mem_singleton.2 (apart_stagingDir hp m.disk.cwd))
  rw [isDirectory_congr htree] at hdir
  refine hstaged ?_ rfl
  -- what is above the target is a directory, and so is the ground of its staging directory
  have hground := (stagingDir_spec hp).1.ground_isPrefix m.disk.cwd
  rw [(stagingDir_spec hp).2, List.dropLast_concat] at hground
  exact ((isDirectory_iff hp.ends).1 hdir).2.of_isPrefix (hground.trans (List.dropLast_prefix _))

/-- A target stays staged where nothing around it is changed. -/
theorem Staged.confined {places : List Location} (h : Staged d p) (hp : p.Descends name) (hconf : Confined places d d')
    (htarget : ∀ s ∈ places, Apart s (p.location d.cwd)) (hstage : ∀ s ∈ places, ¬s <+: (stagingDir p).location d.cwd) :
    Staged d' p := by
  intro hdir
  rw [isDirectory_congr (hconf.tree_eq hp htarget)] at hdir
  exact hconf.isDirectory (stagingDir_spec hp).1 (h hdir) hstage

/-- Once its target is removed, a staging directory can be renamed to it. -/
theorem exists_rename_stagingDir (hp : p.Descends name) (hstaged : d.isDirectory (stagingDir p) = true)
    (hdir : d.isDirectory p = true) :
    ∃ disk, (d.update (p.location d.cwd) none).rename (stagingDir p) p = .ok disk := by
  have hstage := (stagingDir_spec hp).1
  have hapart := apart_stagingDir hp d.cwd
  have hconf := confined_update d (p.location d.cwd) none
  obtain ⟨hreach, hat⟩ := (isDirectory_iff hp.ends).1 hdir
  obtain ⟨hreachStage, es, hes⟩ := (isDirectory_iff hstage.ends).1 hstaged
  have hnone : (d.update (p.location d.cwd) none).root.at? (p.location d.cwd) = none := by
    have hgone := at?_update_concat (hat.of_isPrefix (List.dropLast_prefix _)) name none
    rwa [← hp.ends.location_eq d.cwd] at hgone
  generalize d.update (p.location d.cwd) none = d₁ at hconf hnone
  have hout : ∀ s ∈ [p.location d.cwd], ¬s <+: (p.location d.cwd).dropLast :=
    List.forall_mem_singleton.2 (hp.ends.not_prefix_dropLast d.cwd)
  have hout' : ∀ s ∈ [p.location d.cwd], ¬s <+: ((stagingDir p).location d.cwd).dropLast := by
    rw [(stagingDir_spec hp).2, List.dropLast_concat]
    exact hout
  have hkept := (hconf.kept _ (List.forall_mem_singleton.2 hapart.symm)).trans hes
  rw [← hconf.cwd] at hapart hnone hkept
  exact ⟨_, rename_of_none hstage.ends hp.ends (hconf.reaches hstage hreachStage hout') (hconf.reaches hp hreach hout)
    hapart.1 hkept hnone⟩

/-- What a swap of a target for its staging directory comes to: the target is what was staged, and all else is kept. -/
structure Swapped (p : Path) (d d' : Disk) : Prop where
  confined : Confined [(stagingDir p).location d.cwd, p.location d.cwd] d d'
  found : ∃ node, d.tree (stagingDir p) = some node ∧ d'.tree p = some node

/-- Once a target is cleared, renaming its staging directory to it swaps them. -/
theorem swapped_of_rename {d₁ : Disk} (hp : p.Descends name) (hconf : Confined [p.location d.cwd] d d₁)
    (h : d₁.rename (stagingDir p) p = .ok d') : Swapped p d d' := by
  obtain ⟨node, htree, hmoved, hfound⟩ := rename_stagingDir hp h
  rw [hconf.tree_eq (stagingDir_spec hp).1 (List.forall_mem_singleton.2 (apart_stagingDir hp d.cwd).symm)] at htree
  rw [hconf.cwd] at hmoved
  exact ⟨(hconf.mono (by simp)).trans hmoved, node, htree, hfound⟩

/-- What clearing a target and renaming its staging directory to it comes to. Both succeed; or the target was no directory, and
nothing is changed. -/
theorem swap_cases {r : Except LinkError Unit} (hp : p.Descends name) (hstaged : Staged m.disk p)
    (h : perform (do onDisk p (Host.clear p); onDisk p (Host.rename (stagingDir p) p)) m = (r, m')) :
    (r = .ok () ∧ Swapped p m.disk m'.disk) ∨ ∃ e, r = .error (.diskFailed p e) ∧ m.disk.isDirectory p = false ∧ m' = m := by
  cases hdir : m.disk.isDirectory p with
  | true =>
    -- the target is removed, and then nothing keeps the staging directory from its place
    have hclear := perform_onDisk (run_clear_of_isDirectory hp.ends hdir) p
    have hconf := confined_update m.disk (p.location m.disk.cwd) none
    obtain ⟨disk, hrename⟩ := exists_rename_stagingDir hp (hstaged hdir) hdir
    generalize m.disk.update (p.location m.disk.cwd) none = d₁ at hclear hconf hrename
    rcases perform_bind_cases h with ⟨_, hx, -⟩ | ⟨_, m₂, hx, hrest⟩
    · nomatch hclear.symm.trans hx
    · obtain ⟨-, rfl⟩ := Prod.mk.inj (hclear.symm.trans hx)
      have hrun := perform_onDisk (m := { m with disk := d₁ }) (run_change_of_ok (f := (·.rename (stagingDir p) p)) hrename) p
      obtain ⟨rfl, rfl⟩ := Prod.mk.inj (hrun.symm.trans hrest)
      exact Or.inl ⟨rfl, swapped_of_rename hp hconf hrename⟩
  | false =>
    obtain ⟨r₁, hrun⟩ := exists_run_clear_of_not_isDirectory hdir
    have hclear := perform_onDisk hrun p
    rcases perform_bind_cases h with ⟨e, hx, rfl⟩ | ⟨_, m₂, hx, hrest⟩
    · obtain ⟨he, rfl⟩ := Prod.mk.inj (hclear.symm.trans hx)
      cases r₁ with
      | ok u => nomatch he
      | error e₁ => exact Or.inr ⟨e₁, he.symm, rfl, rfl⟩
    · obtain ⟨-, rfl⟩ := Prod.mk.inj (hclear.symm.trans hx)
      cases hrename : m.disk.rename (stagingDir p) p with
      | ok disk =>
        have hrun := perform_onDisk (run_change_of_ok (f := (·.rename (stagingDir p) p)) hrename) p
        obtain ⟨rfl, rfl⟩ := Prod.mk.inj (hrun.symm.trans hrest)
        exact Or.inl ⟨rfl, swapped_of_rename hp (.refl _ _) hrename⟩
      | error e =>
        have hrun := perform_onDisk (run_change_of_error (f := (·.rename (stagingDir p) p)) hrename) p
        obtain ⟨rfl, rfl⟩ := Prod.mk.inj (hrun.symm.trans hrest)
        exact Or.inr ⟨e, rfl, rfl, rfl⟩

/-- What a commit comes to. It succeeds, and the target is what was staged; or the target was no directory, and only the staging
directory is changed. -/
theorem commit_cases {r : Except LinkError Unit} (hp : p.Descends name) (hstaged : Staged m.disk p)
    (h : perform (commit p) m = (r, m')) :
    (r = .ok () ∧ Swapped p m.disk m'.disk) ∨
      ∃ e, r = .error (.diskFailed p e) ∧ m.disk.isDirectory p = false ∧
        Confined [(stagingDir p).location m.disk.cwd] m.disk m'.disk := by
  obtain ⟨m₁, hswap, hend⟩ := perform_discarding h
  rcases swap_cases hp hstaged hswap with ⟨rfl, hswapped⟩ | ⟨e, rfl, hdir, rfl⟩
  · rcases hend with ⟨-, rfl⟩ | ⟨⟨e, he⟩, -⟩
    · exact Or.inl ⟨rfl, hswapped⟩
    · nomatch he
  · rcases hend with ⟨⟨_, he⟩, -⟩ | ⟨-, hdisk⟩
    · nomatch he
    · refine Or.inr ⟨e, rfl, hdir, ?_⟩
      rw [hdisk]
      exact confined_removeTree (stagingDir_spec hp).1.ends m₁.disk

end Output

end DeferredBinding
