import DeferredBinding.Disk.Operations
import DeferredBinding.Proofs.Disk.Node
import DeferredBinding.Proofs.Path
import Mathlib.Data.List.TakeWhile

/-!
# Where a path leads

A path leads to the location that its names spell out (`Path.location`), if it leads anywhere (`location_of_walk`). Two dots lead
up; a path is level when they all stand in front of the first name. Whether a level path can be followed depends only on the
directories around its location (`walk_mono`), so what is found there depends only on what is at the location (`tree_congr`).
-/

namespace DeferredBinding

/-- One name further from a location: two dots lead up. -/
def climb (here : Location) (name : String) : Location :=
  if name = ".." then here.dropLast else here ++ [name]

/-- Two dots stand only in front. -/
def IsLevel (names : List String) : Prop :=
  ".." ∉ names.dropWhile (· == "..")

instance (names : List String) : Decidable (IsLevel names) :=
  inferInstanceAs (Decidable (".." ∉ names.dropWhile (· == "..")))

/-- Where the names of a list begin to lead down. -/
def ground (here : Location) (names : List String) : Location :=
  (names.takeWhile (· == "..")).foldl climb here

/-! ## Lists of names -/

theorem IsLevel.of_down {names : List String} (h : ".." ∉ names) : IsLevel names :=
  fun hm => h ((List.dropWhile_sublist _).subset hm)

/-- Behind a name of a level list, nothing leads up. -/
theorem IsLevel.down {name : String} {names : List String} (h : IsLevel (name :: names)) (hn : name ≠ "..") : ".." ∉ names := by
  rw [IsLevel, List.dropWhile_cons_of_neg (by simpa using hn)] at h
  exact fun hm => h (List.mem_cons_of_mem _ hm)

theorem IsLevel.tail {name : String} {names : List String} (h : IsLevel (name :: names)) : IsLevel names := by
  by_cases hn : name = ".."
  · subst hn
    exact h
  · exact .of_down (h.down hn)

/-- Behind a name inside a level list, nothing leads up. -/
theorem IsLevel.down_of_append {before after : List String} {name : String} (h : IsLevel (before ++ name :: after))
    (hn : name ≠ "..") : ".." ∉ after := by
  induction before with
  | nil => exact h.down hn
  | cons first before ih => exact ih h.tail

/-- The front of a level list is level. -/
theorem IsLevel.of_append {front back : List String} (h : IsLevel (front ++ back)) : IsLevel front := by
  induction front with
  | nil => exact .of_down (by simp)
  | cons first front ih =>
    by_cases hn : first = ".."
    · subst hn
      exact ih h.tail
    · refine .of_down ?_
      rw [List.mem_cons, not_or]
      exact ⟨Ne.symm hn, fun hm => h.down hn (List.mem_append_left _ hm)⟩

/-- A level list stays level with names behind it that do not lead up. -/
theorem IsLevel.append {front back : List String} (h : IsLevel front) (hback : ".." ∉ back) : IsLevel (front ++ back) := by
  induction front with
  | nil => exact .of_down hback
  | cons first front ih =>
    by_cases hn : first = ".."
    · subst hn
      exact ih h.tail
    · refine .of_down ?_
      rw [List.cons_append, List.mem_cons, List.mem_append, not_or, not_or]
      exact ⟨Ne.symm hn, h.down hn, hback⟩

/-- Names that do not lead up are put at the end. -/
theorem foldl_climb_of_down {names : List String} (h : ".." ∉ names) (here : Location) :
    names.foldl climb here = here ++ names := by
  induction names generalizing here with
  | nil => exact (List.append_nil here).symm
  | cons name names ih =>
    rw [List.mem_cons, not_or] at h
    rw [List.foldl_cons, ih h.2, climb, if_neg (Ne.symm h.1), List.append_assoc]
    rfl

/-- A level list leads down from its ground. -/
theorem foldl_climb_of_level {names : List String} (h : IsLevel names) (here : Location) :
    names.foldl climb here = ground here names ++ names.dropWhile (· == "..") := by
  rw [ground, ← foldl_climb_of_down h, ← List.foldl_append, List.takeWhile_append_dropWhile]

/-- The ground of a list is above where it starts. -/
theorem ground_isPrefix (here : Location) (names : List String) : ground here names <+: here := by
  induction names generalizing here with
  | nil => exact List.prefix_rfl
  | cons name names ih =>
    by_cases hn : name = ".."
    · subst hn
      exact (ih here.dropLast).trans (List.dropLast_prefix here)
    · rw [ground, List.takeWhile_cons_of_neg (by simpa using hn)]
      exact List.prefix_rfl

namespace Path

/-- Where a path starts. -/
def start (cwd : Location) (p : Path) : Location :=
  if p.isAbsolute then [] else cwd

/-- The location that a path leads to. -/
def location (cwd : Location) (p : Path) : Location :=
  p.names.foldl climb (p.start cwd)

/-- A level path that ends in a name. -/
structure Descends (p : Path) (name : String) : Prop where
  ends : p.EndsIn name
  level : IsLevel p.names

/-- The location of a path that ends in a name. -/
theorem EndsIn.location_eq_concat {p : Path} {name : String} (h : p.EndsIn name) (cwd : Location) :
    p.location cwd = p.names.dropLast.foldl climb (p.start cwd) ++ [name] := by
  rw [location, h.names_eq, List.foldl_concat, List.dropLast_concat, climb, if_neg h.2.2]

/-- The name that a path ends in is the last of its location. -/
theorem EndsIn.location_eq {p : Path} {name : String} (h : p.EndsIn name) (cwd : Location) :
    p.location cwd = (p.location cwd).dropLast ++ [name] := by
  rw [h.location_eq_concat, List.dropLast_concat]

/-- What a path that ends in a name leads to is not above the directory that holds it. -/
theorem EndsIn.not_prefix_dropLast {p : Path} {name : String} (h : p.EndsIn name) (cwd : Location) :
    ¬p.location cwd <+: (p.location cwd).dropLast := by
  intro hpre
  have hlen := hpre.length_le
  rw [h.location_eq_concat, List.dropLast_concat, List.length_append, List.length_singleton] at hlen
  omega

/-- A level path leads down from every path that it continues, if that one ends in a name. -/
theorem location_isPrefix {p q : Path} {name : String} (hlevel : IsLevel p.names) (habs : q.isAbsolute = p.isAbsolute)
    (hpre : q.names <+: p.names) (hname : q.names = q.names.dropLast ++ [name]) (hne : name ≠ "..") (cwd : Location) :
    q.location cwd <+: p.location cwd := by
  obtain ⟨rest, hrest⟩ := hpre
  have hdown : ".." ∉ rest := by
    rw [← hrest, hname, List.append_assoc] at hlevel
    exact hlevel.down_of_append hne
  have hstart : q.start cwd = p.start cwd := by rw [start, start, habs]
  rw [location, location, ← hrest, List.foldl_append, foldl_climb_of_down hdown, hstart]
  exact List.prefix_append _ _

/-- A path that is continued by names leads to them from where it led. -/
theorem location_join {s : String} (hs : (⟨s⟩ : Path).isAbsolute = false) (hdown : ".." ∉ (⟨s⟩ : Path).names) (p : Path)
    (cwd : Location) : (p.join s).location cwd = p.location cwd ++ (⟨s⟩ : Path).names := by
  rw [location, names_join p hs, List.foldl_append, foldl_climb_of_down hdown, start, isAbsolute_join p hs]
  rfl

/-- Paths with the same components lead to the same location. -/
theorem location_eq_of_sameAs {p q : Path} (h : p.sameAs q = true) (cwd : Location) : p.location cwd = q.location cwd := by
  have hcomps : p.components = q.components := beq_iff_eq.1 h
  have habs : p.isAbsolute = q.isAbsolute := by
    rw [Bool.eq_iff_iff, ← root_mem_components_iff, ← root_mem_components_iff, hcomps]
  rw [location, location, ← filterMap_components, ← filterMap_components, hcomps, start, start, habs]

/-- The ground of a path is above the directory that holds its last name. -/
theorem Descends.ground_isPrefix {p : Path} {name : String} (h : p.Descends name) (cwd : Location) :
    ground (p.start cwd) p.names <+: (p.location cwd).dropLast := by
  rw [location, foldl_climb_of_level h.level]
  have hne : p.names.dropWhile (· == "..") ≠ [] := by
    intro hnil
    have hlast : name ∈ p.names := by
      rw [h.ends.names_eq]
      simp
    have hall := List.dropWhile_eq_nil_iff.1 hnil name hlast
    exact h.ends.2.2 (beq_iff_eq.1 hall)
  rw [List.dropLast_append_of_ne_nil hne]
  exact List.prefix_append _ _

end Path

namespace Disk

/-- There is a directory at a location of a disk. -/
def DirAt (d : Disk) (l : Location) : Prop :=
  d.root.IsDirAt l

/-- The file tree that a path leads to, if it leads anywhere. -/
def tree (d : Disk) (p : Path) : Option Node :=
  (d.stat p).toOption

variable {d d' : Disk} {p : Path} {name : String}

theorem stat_of_tree {node : Node} (h : d.tree p = some node) : d.stat p = .ok node := by
  unfold tree at h
  cases hstat : d.stat p with
  | error e =>
    rw [hstat] at h
    nomatch h
  | ok found =>
    rw [hstat] at h
    rw [Option.some.inj h]

/-- What is above a directory is a directory. -/
theorem DirAt.of_isPrefix {l l' : Location} (h : d.DirAt l') (hp : l <+: l') : d.DirAt l := by
  by_cases hne : l = l'
  · rw [hne]
    exact h
  · obtain ⟨es, hes⟩ := h
    exact Node.isDirAt_of_isPrefix hes hp hne

/-! ## Following parts -/

/-- A part that can be entered leads where it says, and past a name there is a directory. -/
theorem enter_eq_ok {here there : Location} {part : String} (h : d.enter here part = .ok there) :
    there = ([part].filter (· ≠ ".")).foldl climb here ∧ (part ≠ "." → part ≠ ".." → d.DirAt there) := by
  rw [enter] at h
  split at h
  · rename_i hdot
    obtain rfl : part = "." := beq_iff_eq.1 hdot
    rw [← Except.ok.inj h]
    exact ⟨by simp, fun hne => absurd rfl hne⟩
  · rename_i hdot
    have hdot' : part ≠ "." := fun he => hdot (beq_iff_eq.2 he)
    split at h
    · rename_i hdots
      obtain rfl : part = ".." := beq_iff_eq.1 hdots
      rw [← Except.ok.inj h]
      exact ⟨by simp [climb], fun _ hne => absurd rfl hne⟩
    · rename_i hdots
      have hdots' : part ≠ ".." := fun he => hdots (beq_iff_eq.2 he)
      rw [enterName] at h
      split at h
      · nomatch h
      · split at h
        · nomatch h
        · nomatch h
        · rename_i es hes
          rw [← Except.ok.inj h]
          exact ⟨by simp [hdot', hdots', climb], fun _ _ => ⟨es, hes⟩⟩

/-- A part that can be entered on a disk can be entered on every disk with the directory that it leads to. -/
theorem enter_mono {here there : Location} {part : String} (h : d.enter here part = .ok there)
    (hdir : part ≠ "." → part ≠ ".." → d.DirAt there → d'.DirAt there) : d'.enter here part = .ok there := by
  rw [enter] at h ⊢
  split at h
  · rename_i hdot
    rw [if_pos hdot]
    exact h
  · rename_i hdot
    rw [if_neg hdot]
    split at h
    · rename_i hdots
      rw [if_pos hdots]
      exact h
    · rename_i hdots
      rw [if_neg hdots]
      rw [enterName] at h ⊢
      split at h
      · nomatch h
      · rename_i hshort
        rw [if_neg hshort]
        split at h
        · nomatch h
        · nomatch h
        · rename_i es hes
          rw [← Except.ok.inj h] at hdir ⊢
          obtain ⟨es', hes'⟩ := hdir (mt beq_iff_eq.2 hdot) (mt beq_iff_eq.2 hdots) ⟨es, hes⟩
          rw [hes']

/-- Nothing is under a name that is not found. -/
theorem at?_of_enter_notFound {here : Location} {part : String} (h : d.enter here part = .error .notFound) :
    part ≠ "." ∧ d.root.at? (here ++ [part]) = none := by
  rw [enter] at h
  split at h
  · cases h
  · rename_i hdot
    refine ⟨fun he => hdot (beq_iff_eq.2 he), ?_⟩
    split at h
    · cases h
    · rw [enterName] at h
      split at h
      · cases h
      · split at h
        · assumption
        · cases h
        · cases h

/-- What following parts comes to: the last part is left, after the parts in front of it were entered one by one. -/
theorem follow_cons {slash : Bool} {here : Location} {part : String} {rest : List String} {spot : Spot} :
    d.follow slash here (part :: rest) = .ok spot ↔
      rest = [] ∧ spot = ⟨here, .ofPart part, slash⟩ ∨
        rest ≠ [] ∧ ∃ there, d.enter here part = .ok there ∧ d.follow slash there rest = .ok spot := by
  cases rest with
  | nil => simp [follow, eq_comm]
  | cons next rest =>
    rw [follow]
    cases hent : d.enter here part with
    | error e => simp [Bind.bind, Except.bind]
    | ok there => simp [Bind.bind, Except.bind]

/-- Parts lead where their names say. -/
theorem location_of_follow {slash : Bool} {here : Location} {parts : List String} {spot : Spot}
    (h : d.follow slash here parts = .ok spot) : spot.location = (parts.filter (· ≠ ".")).foldl climb here := by
  induction parts generalizing here with
  | nil =>
    rw [follow] at h
    rw [← Except.ok.inj h]
    rfl
  | cons part rest ih =>
    rcases follow_cons.1 h with ⟨rfl, rfl⟩ | ⟨-, there, hent, hrest⟩
    · by_cases hdot : part = "."
      · simp [Spot.location, Last.ofPart, hdot]
      · by_cases hdots : part = ".."
        · simp [Spot.location, Last.ofPart, hdots, climb]
        · simp [Spot.location, Last.ofPart, hdot, hdots, climb]
    · rw [ih hrest, (enter_eq_ok hent).1, ← List.foldl_append, ← List.filter_append]
      rfl

/-- Nothing is where parts lead down to that are not found. -/
theorem at?_of_follow_notFound {slash : Bool} {here : Location} {parts : List String} (hdown : ".." ∉ parts)
    (h : d.follow slash here parts = .error .notFound) : d.root.at? (here ++ parts.filter (· ≠ ".")) = none := by
  induction parts generalizing here with
  | nil => cases h
  | cons part rest ih =>
    cases rest with
    | nil => cases h
    | cons next rest =>
      rw [List.mem_cons, not_or] at hdown
      rw [follow] at h
      cases henter : d.enter here part with
      | error e =>
        rw [henter] at h
        obtain rfl := Except.error.inj h
        obtain ⟨hdot, hnone⟩ := at?_of_enter_notFound henter
        rw [List.filter_cons_of_pos (by simpa using hdot), List.append_cons, Node.at?_append, hnone]
        rfl
      | ok there =>
        rw [henter] at h
        have hpart : ".." ∉ [part].filter (· ≠ ".") := fun hm => hdown.1 (List.mem_singleton.1 (List.mem_filter.1 hm).1)
        have hthere := (enter_eq_ok henter).1
        rw [foldl_climb_of_down hpart] at hthere
        have hrest := ih hdown.2 h
        rw [hthere, List.append_assoc, ← List.filter_append] at hrest
        exact hrest

/-- Parts that do not lead up lead further down, and past directories only. -/
theorem directory_of_follow_down {slash : Bool} {here : Location} {parts : List String} {spot : Spot}
    (hdown : ".." ∉ parts) (h : d.follow slash here parts = .ok spot) :
    here <+: spot.directory ∧ (spot.directory = here ∨ d.DirAt spot.directory) := by
  induction parts generalizing here with
  | nil =>
    rw [follow] at h
    rw [← Except.ok.inj h]
    exact ⟨List.prefix_rfl, Or.inl rfl⟩
  | cons part rest ih =>
    rw [List.mem_cons, not_or] at hdown
    rcases follow_cons.1 h with ⟨rfl, rfl⟩ | ⟨-, there, hent, hrest⟩
    · exact ⟨List.prefix_rfl, Or.inl rfl⟩
    · obtain ⟨hthere, hdir⟩ := enter_eq_ok hent
      obtain ⟨hpre, hdir'⟩ := ih hdown.2 hrest
      by_cases hdot : part = "."
      · obtain rfl : there = here := by simpa [hdot] using hthere
        exact ⟨hpre, hdir'⟩
      · have hdirThere := hdir hdot (Ne.symm hdown.1)
        have hthere' : there = here ++ [part] := by simpa [hdot, climb, Ne.symm hdown.1] using hthere
        refine ⟨(hthere' ▸ List.prefix_append _ _).trans hpre, Or.inr ?_⟩
        rcases hdir' with hdir' | hdir'
        · rw [hdir']
          exact hdirThere
        · exact hdir'

/-- The parts behind an entered part of a level list: they are level, and behind a name they do not lead up. -/
theorem level_parts_tail {part : String} {rest : List String} (h : IsLevel ((part :: rest).filter (· ≠ "."))) :
    IsLevel (rest.filter (· ≠ ".")) ∧ (part ≠ "." → part ≠ ".." → ".." ∉ rest) := by
  by_cases hdot : part = "."
  · subst hdot
    exact ⟨h, fun hne => absurd rfl hne⟩
  · rw [List.filter_cons_of_pos (by simpa using hdot)] at h
    refine ⟨h.tail, fun _ hdots hm => h.down hdots ?_⟩
    exact List.mem_filter.2 ⟨hm, by simp⟩

/-- Level parts that can be followed on a disk can be followed on every disk with the directories around their end. -/
theorem follow_mono {slash : Bool} {here : Location} {parts : List String} {spot : Spot}
    (hlevel : IsLevel (parts.filter (· ≠ "."))) (h : d.follow slash here parts = .ok spot)
    (hdirs : ∀ l, l <+: spot.directory → d.DirAt l → d'.DirAt l) : d'.follow slash here parts = .ok spot := by
  induction parts generalizing here with
  | nil => exact h
  | cons part rest ih =>
    obtain ⟨htail, hdown⟩ := level_parts_tail hlevel
    rcases follow_cons.1 h with ⟨rfl, rfl⟩ | ⟨hne, there, hent, hrest⟩
    · exact follow_cons.2 (Or.inl ⟨rfl, rfl⟩)
    · refine follow_cons.2 (Or.inr ⟨hne, there, ?_, ih htail hrest⟩)
      refine enter_mono hent fun hdot hdots => hdirs there ?_
      exact (directory_of_follow_down (hdown hdot hdots) hrest).1

/-- Level parts that end in a name lead into a directory, if their ground is one. -/
theorem dirAt_of_follow {slash : Bool} {here : Location} {parts : List String} {spot : Spot}
    (hlevel : IsLevel (parts.filter (· ≠ "."))) (h : d.follow slash here parts = .ok spot) (hname : spot.last = .name name)
    (hground : d.DirAt (ground here (parts.filter (· ≠ ".")))) : d.DirAt spot.directory := by
  induction parts generalizing here with
  | nil =>
    rw [follow] at h
    rw [← Except.ok.inj h] at hname
    nomatch hname
  | cons part rest ih =>
    obtain ⟨htail, hdown⟩ := level_parts_tail hlevel
    rcases follow_cons.1 h with ⟨rfl, rfl⟩ | ⟨hne, there, hent, hrest⟩
    · by_cases hdot : part = "."
      · rw [hdot] at hname
        nomatch hname
      · by_cases hdots : part = ".."
        · rw [hdots] at hname
          nomatch hname
        · simpa [hdot, ground, hdots] using hground
    · obtain ⟨hthere, hdir⟩ := enter_eq_ok hent
      by_cases hdot : part = "."
      · subst hdot
        obtain rfl : there = here := by simpa using hthere
        exact ih htail hrest hground
      · by_cases hdots : part = ".."
        · subst hdots
          obtain rfl : there = here.dropLast := by simpa [climb] using hthere
          exact ih htail hrest (by simpa [ground, climb] using hground)
        · rcases (directory_of_follow_down (hdown hdot hdots) hrest).2 with hend | hend
          · rw [hend]
            exact hdir hdot hdots
          · exact hend

/-- The last of the parts is what following them leaves. -/
theorem last_of_follow {slash : Bool} {here : Location} {parts : List String} {spot : Spot} {part : String}
    (h : d.follow slash here parts = .ok spot) (hlast : parts.getLast? = some part) :
    spot.last = .ofPart part ∧ spot.slash = slash := by
  induction parts generalizing here with
  | nil => nomatch hlast
  | cons first rest ih =>
    rcases follow_cons.1 h with ⟨rfl, rfl⟩ | ⟨hne, there, hent, hrest⟩
    · obtain rfl : first = part := by simpa using hlast
      exact ⟨rfl, rfl⟩
    · refine ih hrest ?_
      rw [List.getLast?_cons, List.getLast?_eq_getLast_of_ne_nil hne] at hlast
      rw [List.getLast?_eq_getLast_of_ne_nil hne]
      exact hlast

/-! ## Following a path -/

/-- The parts of a path that can be followed are followed from its start. -/
theorem follow_of_walk {spot : Spot} (h : d.walk p = .ok spot) :
    d.follow (p.text.toList.getLast? == some '/') (p.start d.cwd) (p.pieces.filter (· != "")) = .ok spot := by
  rw [walk] at h
  split at h
  · nomatch h
  · split at h
    · nomatch h
    · split at h
      · nomatch h
      · exact h

/-- The names of a path are its parts without dots. -/
theorem filter_parts (p : Path) : (p.pieces.filter (· != "")).filter (· ≠ ".") = p.names := by
  rw [Path.names, List.filter_filter]
  refine List.filter_congr fun s _ => ?_
  rw [Path.isIdle, Bool.not_or, Bool.and_comm, decide_not]
  rfl

/-- A path that can be followed leads to its location. -/
theorem location_of_walk {spot : Spot} (h : d.walk p = .ok spot) : spot.location = p.location d.cwd := by
  rw [location_of_follow (follow_of_walk h), filter_parts]
  rfl

/-- Nothing is where a path leads down to that is not found. -/
theorem at?_of_walk_notFound (hp : p.EndsIn name) (hdown : ".." ∉ p.names) (h : d.walk p = .error .notFound) :
    d.root.at? (p.location d.cwd) = none := by
  rw [walk] at h
  split at h
  · cases h
  · split at h
    · rename_i hempty
      exact absurd (beq_iff_eq.1 hempty) hp.text_ne
    · split at h
      · cases h
      · have hparts : ".." ∉ p.pieces.filter (· != "") := by
          intro hm
          rw [← filter_parts] at hdown
          exact hdown (List.mem_filter.2 ⟨hm, rfl⟩)
        rw [Path.location, foldl_climb_of_down hdown, ← filter_parts]
        exact at?_of_follow_notFound hparts h

/-- A path that can be followed on a disk can be followed on every disk where its parts can. -/
theorem walk_of_follow {spot : Spot} (h : d.walk p = .ok spot) (hcwd : d'.cwd = d.cwd)
    (hfollow : d'.follow (p.text.toList.getLast? == some '/') (p.start d.cwd) (p.pieces.filter (· != "")) = .ok spot) :
    d'.walk p = .ok spot := by
  rw [walk] at h ⊢
  split at h
  · nomatch h
  · rename_i hnul
    split at h
    · nomatch h
    · rename_i hempty
      split at h
      · nomatch h
      · rename_i hlong
        rw [if_neg hnul, if_neg hempty, if_neg hlong, hcwd]
        exact hfollow

/-- A level path that can be followed on a disk can be followed on every disk with the directories around its end. -/
theorem walk_mono (hlevel : IsLevel p.names) {spot : Spot} (h : d.walk p = .ok spot) (hcwd : d'.cwd = d.cwd)
    (hdirs : ∀ l, l <+: spot.directory → d.DirAt l → d'.DirAt l) : d'.walk p = .ok spot :=
  walk_of_follow h hcwd (follow_mono ((filter_parts p).symm ▸ hlevel) (follow_of_walk h) hdirs)

/-- A level path that is left with a name leads into a directory, if its ground is one. -/
theorem dirAt_of_walk (hlevel : IsLevel p.names) {spot : Spot} (h : d.walk p = .ok spot) (hname : spot.last = .name name)
    (hground : d.DirAt (ground (p.start d.cwd) p.names)) : d.DirAt spot.directory := by
  rw [← filter_parts] at hlevel hground
  exact dirAt_of_follow hlevel (follow_of_walk h) hname hground

/-- A path that is left with a name has it as its last one. -/
theorem names_of_walk {spot : Spot} (h : d.walk p = .ok spot) (hname : spot.last = .name name) :
    p.names = p.names.dropLast ++ [name] ∧ name ≠ ".." := by
  have hfollow := follow_of_walk h
  rcases List.eq_nil_or_concat' (p.pieces.filter (· != "")) with hnil | ⟨before, part, hparts⟩
  · rw [hnil, follow] at hfollow
    rw [← Except.ok.inj hfollow] at hname
    nomatch hname
  · have hlast := (last_of_follow hfollow (by rw [hparts, List.getLast?_concat])).1
    rw [hlast, Last.ofPart] at hname
    split at hname
    · nomatch hname
    · rename_i hdot
      split at hname
      · nomatch hname
      · rename_i hdots
        obtain rfl : part = name := Last.name.inj hname
        refine ⟨?_, mt beq_iff_eq.2 hdots⟩
        have hnames := filter_parts p
        rw [hparts, List.filter_append, List.filter_cons_of_pos (by simpa using hdot), List.filter_nil] at hnames
        rw [← hnames, List.dropLast_concat]

/-! ## Paths that end in a name -/

/-- The place that a path which ends in a name leads to can be named: the path can be followed to it, and the name is not too
long. -/
structure Reaches (d : Disk) (p : Path) (name : String) : Prop where
  walk_eq : d.walk p = .ok ⟨(p.location d.cwd).dropLast, .name name, false⟩
  short : ¬nameLimit < name.utf8ByteSize

/-- A path that ends in a name can only be followed to its location. -/
theorem walk_eq_of_endsIn (hp : p.EndsIn name) {spot : Spot} (h : d.walk p = .ok spot) :
    spot = ⟨(p.location d.cwd).dropLast, .name name, false⟩ := by
  obtain ⟨before, hbefore⟩ := List.getLast?_eq_some_iff.1 hp.1
  have hidle := hp.2.1
  rw [Path.isIdle, Bool.or_eq_false_iff] at hidle
  have hparts : (p.pieces.filter (· != "")).getLast? = some name := by
    have hne : (name != "") = true := by simp [bne, hidle.1]
    rw [hbefore, List.filter_append, List.filter_cons, if_pos hne, List.filter_nil, List.getLast?_concat]
  obtain ⟨hlast, hslash⟩ := last_of_follow (follow_of_walk h) hparts
  rw [Last.ofPart, hidle.2, beq_eq_false_iff_ne.2 hp.2.2] at hlast
  rw [beq_eq_false_iff_ne.2 hp.getLast?_ne_slash] at hslash
  have hloc := location_of_walk h
  obtain ⟨directory, last, slash⟩ := spot
  obtain rfl : last = .name name := hlast
  obtain rfl : slash = false := hslash
  rw [← hloc]
  simp [Spot.location]

theorem Reaches.spot_location (hp : p.EndsIn name) :
    (⟨(p.location d.cwd).dropLast, .name name, false⟩ : Spot).location = p.location d.cwd :=
  (hp.location_eq d.cwd).symm

/-- What is found at a path that ends in a name. -/
theorem find_eq_ok_iff (hp : p.EndsIn name) {l : Location} {node : Node} :
    d.find p = .ok (l, node) ↔ d.Reaches p name ∧ l = p.location d.cwd ∧ d.root.at? (p.location d.cwd) = some node := by
  rw [find]
  constructor
  · intro h
    cases hwalk : d.walk p with
    | error e =>
      rw [hwalk] at h
      nomatch h
    | ok spot =>
      obtain rfl := walk_eq_of_endsIn hp hwalk
      rw [hwalk] at h
      simp only [Bind.bind, Except.bind, Reaches.spot_location hp] at h
      split at h
      · nomatch h
      · rename_i hshort
        refine ⟨⟨hwalk, hshort⟩, ?_⟩
        split at h
        · nomatch h
        · rename_i hat
          rw [hat]
          obtain ⟨rfl, rfl⟩ := Prod.mk.inj (Except.ok.inj h)
          exact ⟨rfl, rfl⟩
        · rename_i hat
          rw [hat]
          obtain ⟨rfl, rfl⟩ := Prod.mk.inj (Except.ok.inj h)
          exact ⟨rfl, rfl⟩
  · rintro ⟨⟨hwalk, hshort⟩, rfl, hat⟩
    rw [hwalk]
    simp only [Bind.bind, Except.bind, Reaches.spot_location hp, if_neg hshort, hat]
    cases node with
    | file bytes => rfl
    | directory es => rfl

/-- The tree at a path that ends in a name is the one at its location, if the path leads there. -/
theorem tree_eq_some_iff (hp : p.EndsIn name) {node : Node} :
    d.tree p = some node ↔ d.Reaches p name ∧ d.root.at? (p.location d.cwd) = some node := by
  rw [tree, stat]
  cases hfind : d.find p with
  | error e =>
    refine ⟨fun h => absurd h (by simp [Except.map, Except.toOption]), ?_⟩
    rintro ⟨hreach, hat⟩
    rw [(find_eq_ok_iff hp).2 ⟨hreach, rfl, hat⟩] at hfind
    nomatch hfind
  | ok found =>
    obtain ⟨hreach, -, hat⟩ := (find_eq_ok_iff hp).1 hfind
    change some found.2 = some node ↔ _
    rw [hat]
    exact ⟨fun h => ⟨hreach, h⟩, fun h => h.2⟩

/-- A path leads to a directory if the tree found there is one. -/
theorem isDirectory_iff_tree : d.isDirectory p = true ↔ ∃ es, d.tree p = some (.directory es) := by
  rw [isDirectory, tree]
  cases d.stat p with
  | error e => simp [Except.toOption]
  | ok node =>
    cases node with
    | file bytes => simp [Except.toOption]
    | directory es => simp [Except.toOption]

/-- Where the same tree is found, there is a directory or there is none. -/
theorem isDirectory_congr {q : Path} (h : d'.tree q = d.tree p) : d'.isDirectory q = d.isDirectory p := by
  rw [Bool.eq_iff_iff, isDirectory_iff_tree, isDirectory_iff_tree, h]

/-- A path that ends in a name leads to a directory if there is one at its location and the path leads there. -/
theorem isDirectory_iff (hp : p.EndsIn name) :
    d.isDirectory p = true ↔ d.Reaches p name ∧ d.DirAt (p.location d.cwd) := by
  rw [isDirectory_iff_tree]
  simp only [tree_eq_some_iff hp, exists_and_left]
  rfl

/-- A place that can be named on a disk can be named on every disk with the directories around it. -/
theorem Reaches.mono (hp : p.Descends name) (h : d.Reaches p name) (hcwd : d'.cwd = d.cwd)
    (hdirs : ∀ l, l <+: (p.location d.cwd).dropLast → d.DirAt l → d'.DirAt l) : d'.Reaches p name := by
  refine ⟨?_, h.short⟩
  rw [hcwd]
  exact walk_mono hp.level h.walk_eq hcwd hdirs

/-- What is found at a path depends only on what is at its location. -/
theorem tree_congr (hp : p.Descends name) (hcwd : d'.cwd = d.cwd)
    (hat : d'.root.at? (p.location d.cwd) = d.root.at? (p.location d.cwd)) : d'.tree p = d.tree p := by
  -- what is at the location has directories above it, so both disks lead there or neither does
  have hone : ∀ {d d' : Disk} {node : Node}, d'.cwd = d.cwd →
      d'.root.at? (p.location d.cwd) = d.root.at? (p.location d.cwd) → d.tree p = some node → d'.tree p = some node := by
    intro d d' node hcwd hat h
    obtain ⟨hreach, hnode⟩ := (tree_eq_some_iff hp.ends).1 h
    refine (tree_eq_some_iff hp.ends).2 ⟨hreach.mono hp hcwd ?_, ?_⟩
    · intro l hl _
      have hne : (p.location d.cwd).dropLast ≠ p.location d.cwd := fun heq =>
        hp.ends.not_prefix_dropLast d.cwd (heq.symm ▸ List.prefix_rfl)
      exact DirAt.of_isPrefix (Node.isDirAt_of_isPrefix (hat.trans hnode) (List.dropLast_prefix _) hne) hl
    · rw [hcwd, hat, hnode]
  refine Option.ext fun node => ⟨hone hcwd.symm ?_, hone hcwd hat⟩
  rw [hcwd, hat]

end Disk

end DeferredBinding
