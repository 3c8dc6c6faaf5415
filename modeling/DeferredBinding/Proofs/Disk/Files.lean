import DeferredBinding.Proofs.Disk.Confined

/-!
# Files that are written are read back

Where nothing that was a directory stops being one, every path leads where it did, dots and all. So a file is read back
after it is written (`read_of_write`), whatever its path, as long as the working directory is there.
-/

namespace DeferredBinding.Disk

variable {d d' : Disk} {p : Path} {bytes : ByteArray}

/-- Parts that can be followed on a disk can be followed on every disk with its directories. -/
theorem follow_of_kept {slash : Bool} {here : Location} {parts : List String} {spot : Spot}
    (h : d.follow slash here parts = .ok spot) (hdirs : ∀ l, d.DirAt l → d'.DirAt l) :
    d'.follow slash here parts = .ok spot := by
  induction parts generalizing here with
  | nil => exact h
  | cons part rest ih =>
    rcases follow_cons.1 h with ⟨rfl, rfl⟩ | ⟨hne, there, hent, hrest⟩
    · exact follow_cons.2 (Or.inl ⟨rfl, rfl⟩)
    · exact follow_cons.2 (Or.inr ⟨hne, there, enter_mono hent fun _ _ => hdirs there, ih hrest⟩)

/-- Parts that are followed from a directory are left in a directory. -/
theorem dirAt_of_follow_from {slash : Bool} {here : Location} {parts : List String} {spot : Spot}
    (h : d.follow slash here parts = .ok spot) (hhere : d.DirAt here) : d.DirAt spot.directory := by
  induction parts generalizing here with
  | nil =>
    rw [follow] at h
    rw [← Except.ok.inj h]
    exact hhere
  | cons part rest ih =>
    rcases follow_cons.1 h with ⟨rfl, rfl⟩ | ⟨-, there, hent, hrest⟩
    · exact hhere
    · refine ih hrest ?_
      obtain ⟨hthere, hdir⟩ := enter_eq_ok hent
      by_cases hdot : part = "."
      · obtain rfl : there = here := by simpa [hdot] using hthere
        exact hhere
      · by_cases hdots : part = ".."
        · obtain rfl : there = here.dropLast := by simpa [hdots, climb] using hthere
          exact hhere.of_isPrefix (List.dropLast_prefix here)
        · exact hdir hdot hdots

/-- A path starts in a directory, if the working directory is one. -/
theorem DirAt.start (h : d.DirAt d.cwd) (p : Path) : d.DirAt (p.start d.cwd) := by
  unfold Path.start
  split
  · exact h.of_isPrefix List.nil_prefix
  · exact h

/-- A file is written under a name that is not too long, and by a path that does not end in a slash. -/
theorem exists_spot_of_write (h : d.write p bytes = .ok d') :
    ∃ (spot : Spot) (name : String), d.walk p = .ok spot ∧ spot.last = .name name ∧ spot.slash = false ∧
      ¬nameLimit < name.utf8ByteSize := by
  unfold write at h
  cases hwalk : d.walk p with
  | error e =>
    rw [hwalk] at h
    nomatch h
  | ok spot =>
    rw [hwalk] at h
    simp only [Bind.bind, Except.bind] at h
    split at h
    · rename_i name hname
      split at h
      · nomatch h
      · rename_i hslash
        split at h
        · nomatch h
        · rename_i hshort
          exact ⟨spot, name, rfl, hname, by simpa using hslash, hshort⟩
    · nomatch h

theorem slash_of_follow {slash : Bool} {here : Location} {parts : List String} {spot : Spot}
    (h : d.follow slash here parts = .ok spot) : spot.slash = slash := by
  induction parts generalizing here with
  | nil =>
    unfold follow at h
    rw [← Except.ok.inj h]
  | cons part rest ih =>
    rcases follow_cons.1 h with ⟨-, rfl⟩ | ⟨-, there, -, hrest⟩
    · rfl
    · exact ih hrest

/-- A path that is left with a name and no slash behind it ends in the name. -/
theorem endsIn_of_walk {spot : Spot} {name : String} (h : d.walk p = .ok spot) (hname : spot.last = .name name)
    (hslash : spot.slash = false) : p.EndsIn name := by
  have hfollow := follow_of_walk h
  have htext : p.text ≠ "" := by
    intro hempty
    rw [walk, hempty] at h
    cases h
  obtain ⟨before, last, hpieces⟩ := (List.eq_nil_or_concat' p.pieces).resolve_left p.pieces_ne_nil
  have hlast : last ≠ "" := by
    rintro rfl
    rw [slash_of_follow hfollow, beq_eq_false_iff_ne] at hslash
    have hbehind := Path.getLast?_of_last_piece_empty (p := p) (by rw [hpieces, List.getLast?_concat])
    exact hbehind.elim htext hslash
  have hparts : (p.pieces.filter (· != "")).getLast? = some last := by
    rw [hpieces, List.filter_append, List.filter_cons_of_pos (by simpa using hlast), List.filter_nil, List.getLast?_concat]
  rw [(last_of_follow hfollow hparts).1, Last.ofPart] at hname
  split at hname
  · cases hname
  · rename_i hdot
    split at hname
    · cases hname
    · rename_i hdots
      obtain rfl := Last.name.inj hname
      refine ⟨by rw [hpieces, List.getLast?_concat], ?_, mt beq_iff_eq.2 hdots⟩
      rw [Path.isIdle, Bool.or_eq_false_iff]
      exact ⟨beq_eq_false_iff_ne.2 hlast, by simpa using hdot⟩

/-- What is written to a file is read back from it. -/
theorem read_of_write (hcwd : d.DirAt d.cwd) (h : d.write p bytes = .ok d') : d'.read p = .ok bytes := by
  obtain ⟨spot, name, hwalk, hname, hslash, hshort⟩ := exists_spot_of_write h
  obtain ⟨hnone, rfl⟩ := write_eq_ok h
  have hdirs : ∀ l, d.DirAt l → (d.update (p.location d.cwd) (some (.file bytes))).DirAt l :=
    fun l hl => hl.update hnone _
  have hwalk' : (d.update (p.location d.cwd) (some (.file bytes))).walk p = .ok spot :=
    walk_of_follow hwalk rfl (follow_of_kept (follow_of_walk hwalk) hdirs)
  have hdir := dirAt_of_follow_from (follow_of_walk hwalk) (hcwd.start p)
  have hloc : p.location d.cwd = spot.directory ++ [name] := by
    rw [← location_of_walk hwalk, Spot.location, hname]
  have hat : (d.update (p.location d.cwd) (some (.file bytes))).root.at? spot.location = some (.file bytes) := by
    rw [location_of_walk hwalk, hloc]
    exact at?_update_concat hdir name _
  rw [read, stat, find, hwalk']
  simp only [Bind.bind, Except.bind, hname, if_neg hshort, hat, hslash]
  rfl

/-- What is renamed is put under a name. -/
theorem exists_spot_of_rename {source target : Path} (h : d.rename source target = .ok d') :
    ∃ (spot : Spot) (name : String), d.walk target = .ok spot ∧ spot.last = .name name := by
  unfold rename at h
  cases hsource : d.walk source with
  | error e =>
    rw [hsource] at h
    nomatch h
  | ok spot =>
    cases htarget : d.walk target with
    | error e =>
      rw [hsource, htarget] at h
      nomatch h
    | ok spot' =>
      rw [hsource, htarget] at h
      simp only [Bind.bind, Except.bind] at h
      split at h
      · rename_i hname
        exact ⟨spot', _, rfl, hname⟩
      · nomatch h

theorem exists?_eq_isSome_tree (d : Disk) (p : Path) : d.exists? p = (d.tree p).isSome := by
  unfold exists? tree
  cases d.stat p with
  | ok node => rfl
  | error e => rfl

end DeferredBinding.Disk
