import DeferredBinding.Deploy.Layout
import DeferredBinding.Proofs.Deploy.Staging

/-!
# Where the directories of a layout are

Paths that part in plain segments are one, or one inside the other, in their components exactly when they are so in their
locations (`PartsPlainly.startsWith_iff`). Output directories of plain segments (`Path.IsStraight`) do, so the directories of a
layout that is accepted are apart or one (`Layout.Placed`). Without a directory of their own, private files are put into a
directory next to the public one, and these two are never in each other's way (`placed_beside`).
-/

namespace DeferredBinding

namespace Path

/-! ## Pieces at the end of a path -/

/-- A text without slashes behind another one goes on with its last piece. -/
theorem exists_pieces_append (t : String) :
    ∃ before z, (⟨t⟩ : Path).pieces = before ++ [z] ∧
      ∀ w : String, '/' ∉ w.toList → (⟨t ++ w⟩ : Path).pieces = before ++ [z ++ w] := by
  obtain ⟨before, z, ht⟩ : ∃ (before : List (List Char)) (z : List Char),
      ∀ w, '/' ∉ w → cut (t.toList ++ w) = before ++ [z ++ w] := by
    rcases cut_last t.toList with hno | ⟨u, v, htext, hv⟩
    · exact ⟨[], t.toList, fun w hw => cut_of_not_mem (by simp [hno, hw])⟩
    · refine ⟨cut u, v, fun w hw => ?_⟩
      have hlast : '/' ∉ v ++ w := by simp [hv, hw]
      rw [htext, List.append_assoc, List.cons_append, cut_append_slash, cut_of_not_mem hlast]
  refine ⟨before.map String.ofList, String.ofList z, ?_, fun w hw => ?_⟩
  · have hnone := ht [] (by simp)
    rw [List.append_nil, List.append_nil] at hnone
    rw [pieces, hnone, List.map_append]
    rfl
  · rw [pieces, String.toList_append, ht _ hw]
    simp

/-- Slashes between two texts divide them, with empty pieces between. -/
theorem pieces_append_slashes {t u : String} {k : Nat} (h : u.toList = t.toList ++ List.replicate (k + 1) '/') (w : String) :
    (⟨u ++ w⟩ : Path).pieces = (⟨t⟩ : Path).pieces ++ List.replicate k "" ++ (⟨w⟩ : Path).pieces := by
  have hcut : ∀ a : List Char, cut (a ++ List.replicate (k + 1) '/' ++ w.toList) =
      cut a ++ List.replicate k [] ++ cut w.toList := by
    clear h
    induction k with
    | zero => simp [cut_append_slash]
    | succ k ih =>
      intro a
      have hrest := ih []
      rw [List.nil_append] at hrest
      rw [List.replicate_succ, List.append_assoc, List.cons_append, cut_append_slash, hrest]
      simp [cut, List.replicate_succ]
  rw [pieces, String.toList_append, h, hcut]
  simp [pieces]

/-! ## Paths that part in plain segments -/

/-- Two paths part in plain segments: they have the same components up to a point, and nothing but names behind it. -/
def PartsPlainly (p q : Path) : Prop :=
  ∃ (front : List Component) (a b : List String),
    p.components = front ++ a.map .name ∧ q.components = front ++ b.map .name

theorem PartsPlainly.symm {p q : Path} (h : p.PartsPlainly q) : q.PartsPlainly p := by
  obtain ⟨front, a, b, hp, hq⟩ := h
  exact ⟨front, b, a, hq, hp⟩

/-- A name among the components does not lead up. -/
theorem ne_dots_of_mem_components {p : Path} {s : String} (h : .name s ∈ p.components) : s ≠ ".." := by
  rintro rfl
  rw [components_eq, List.mem_append, Option.mem_toList, List.mem_map] at h
  rcases h with hfront | ⟨s, -, hs⟩
  · unfold front at hfront
    split at hfront
    · nomatch hfront
    · split at hfront
      · nomatch hfront
      · nomatch hfront
  · unfold Component.ofName at hs
    split at hs
    · nomatch hs
    · rename_i hne
      exact hne (Component.name.inj hs)

/-- What is known of a path that has names behind some components: none of them leads up. -/
theorem of_components_eq {p : Path} {front : List Component} {a : List String} (h : p.components = front ++ a.map .name) :
    p.names = front.filterMap Component.piece? ++ a ∧ ".." ∉ a ∧ (p.isAbsolute = true ↔ .root ∈ front) := by
  have hpiece : Component.piece? ∘ Component.name = some := rfl
  refine ⟨?_, fun hm => ?_, ?_⟩
  · rw [← filterMap_components, h, List.filterMap_append, List.filterMap_map, hpiece, List.filterMap_some]
  · have hmem : .name ".." ∈ p.components := by
      rw [h]
      exact List.mem_append_right _ (List.mem_map_of_mem hm)
    exact ne_dots_of_mem_components hmem rfl
  · rw [← root_mem_components_iff, h]
    simp

/-- Where paths lead that begin with the same components: these are followed first, and names behind them lead down. -/
theorem exists_location_eq (front : List Component) (cwd : Location) :
    ∃ here, ∀ (p : Path) (a : List String), p.components = front ++ a.map .name → p.location cwd = here ++ a := by
  refine ⟨(front.filterMap Component.piece?).foldl climb (if .root ∈ front then [] else cwd), fun p a hp => ?_⟩
  obtain ⟨hnames, hdown, hroot⟩ := of_components_eq hp
  rw [location, hnames, List.foldl_append, foldl_climb_of_down hdown]
  simp only [start, hroot]

/-- Paths that part in plain segments are one inside the other exactly when their locations are. -/
theorem PartsPlainly.startsWith_iff {p q : Path} (h : p.PartsPlainly q) (cwd : Location) :
    p.startsWith q = true ↔ q.location cwd <+: p.location cwd := by
  obtain ⟨front, a, b, hp, hq⟩ := h
  obtain ⟨here, hlocation⟩ := exists_location_eq front cwd
  rw [startsWith, List.isPrefixOf_iff_prefix, hlocation p a hp, hlocation q b hq, hp, hq, List.prefix_append_right_inj,
    List.prefix_append_right_inj]
  constructor
  · intro hpre
    have hpiece : Component.piece? ∘ Component.name = some := rfl
    have hnames := hpre.filterMap Component.piece?
    rwa [List.filterMap_map, List.filterMap_map, hpiece, List.filterMap_some, List.filterMap_some] at hnames
  · intro hpre
    exact hpre.map _

/-! ## Straight paths -/

/-- Every segment of a path is plain: it has no dot in front and does not lead up. -/
def IsStraight (p : Path) : Prop :=
  .here ∉ p.components ∧ .above ∉ p.components

instance (p : Path) : Decidable p.IsStraight :=
  inferInstanceAs (Decidable (_ ∧ _))

variable {p q : Path}

/-- A plain path is straight. -/
theorem IsStraight.of_isPlain (h : p.isPlain = true) : p.IsStraight :=
  ⟨not_mem_components_of_isPlain h nofun, not_mem_components_of_isPlain h nofun⟩

/-- A straight path does not lead up. -/
theorem IsStraight.not_mem_names (h : p.IsStraight) : ".." ∉ p.names :=
  fun hm => h.2 ((above_mem_components_iff p).2 hm)

/-- A straight path leads down from its start. -/
theorem IsStraight.location_eq (h : p.IsStraight) (cwd : Location) : p.location cwd = p.start cwd ++ p.names :=
  foldl_climb_of_down h.not_mem_names _

/-- A straight path inside another one is straight. -/
theorem IsStraight.join (h : p.IsStraight) {s : String} (hrel : (⟨s⟩ : Path).isAbsolute = false) (hs : (⟨s⟩ : Path).IsStraight) :
    (p.join s).IsStraight := by
  constructor
  · obtain ⟨before, hpieces, -, hhead⟩ := p.exists_pieces_join hrel
    rw [mem_components_iff_front _ (Or.inr rfl), front, isAbsolute_join p hrel, hpieces]
    have hp := h.1
    have hs' := hs.1
    rw [mem_components_iff_front _ (Or.inr rfl), front] at hp hs'
    rw [hrel] at hs'
    cases habs : p.isAbsolute with
    | true => simp
    | false =>
      rw [habs] at hp
      rcases hhead with ⟨-, rfl⟩ | hhead
      · exact hs'
      · cases before with
        | nil => exact hs'
        | cons first before =>
          rw [← hhead] at hp
          exact hp
  · rw [above_mem_components_iff, names_join p hrel, List.mem_append, not_or]
    exact ⟨h.not_mem_names, hs.not_mem_names⟩

/-- Straight paths from one start part in plain segments. -/
theorem IsStraight.partsPlainly (hp : p.IsStraight) (hq : q.IsStraight) (habs : p.isAbsolute = q.isAbsolute) :
    p.PartsPlainly q := by
  have hcomponents : ∀ {r : Path}, r.IsStraight →
      r.components = (if r.isAbsolute then [.root] else []) ++ r.names.map .name := by
    intro r hr
    have hhere := hr.1
    rw [mem_components_iff_front _ (Or.inr rfl)] at hhere
    rw [components_eq, map_ofName_of_down hr.not_mem_names]
    unfold front at hhere ⊢
    split
    · rfl
    · rename_i hrel
      rw [if_neg hrel] at hhere
      split
      · rename_i hdot
        exact absurd (if_pos hdot) hhere
      · rfl
  exact ⟨_, p.names, q.names, hcomponents hp, habs ▸ hcomponents hq⟩

end Path

/-! ## Deploy paths -/

/-- A deploy path is what is left without its slashes, and its slashes. -/
theorem exists_dropSlashes (d : String) :
    ∃ n, d.toList = (dropSlashes d).toList ++ List.replicate n '/' ∧ (dropSlashes d).toList.getLast? ≠ some '/' := by
  have hslashes : ∀ c ∈ d.toList.reverse.takeWhile (· == '/'), c = '/' := by
    intro c hc
    simpa using List.mem_takeWhile_imp hc
  have hrev := (List.takeWhile_append_dropWhile (p := (· == '/')) (l := d.toList.reverse)).symm
  rw [List.eq_replicate_iff.2 ⟨rfl, hslashes⟩] at hrev
  refine ⟨(d.toList.reverse.takeWhile (· == '/')).length, ?_, ?_⟩
  · have htext := congrArg List.reverse hrev
    rw [List.reverse_reverse, List.reverse_append, List.reverse_replicate] at htext
    rw [dropSlashes, String.toList_ofList]
    exact htext
  · have hhead := List.head?_dropWhile_not (· == '/') d.toList.reverse
    intro hlast
    rw [dropSlashes, String.toList_ofList, List.getLast?_reverse] at hlast
    rw [hlast] at hhead
    simp at hhead

/-- Slashes at the end of a deploy path do not matter for its names. -/
theorem names_dropSlashes (d : String) : (⟨dropSlashes d⟩ : Path).names = (⟨d⟩ : Path).names := by
  obtain ⟨n, htext, -⟩ := exists_dropSlashes d
  cases n with
  | zero =>
    have hsame : d = dropSlashes d := String.toList_inj.1 (by simpa using htext)
    rw [← hsame]
  | succ n =>
    have hpieces := Path.pieces_append_slashes htext ""
    rw [String.append_empty] at hpieces
    have hidle : (List.replicate n "").filter (fun t => !Path.isIdle t) = [] := by
      simp [Path.isIdle]
    have hlast : (⟨""⟩ : Path).pieces.filter (fun t => !Path.isIdle t) = [] := rfl
    rw [Path.names, Path.names, hpieces, List.filter_append, List.filter_append, hidle, hlast, List.append_nil, List.append_nil]

/-- One separator at the end of a deploy path is left out. -/
theorem dropLastSeparator_cases (d : String) :
    d = dropLastSeparator d ++ "/" ∨ d = dropLastSeparator d ++ "\\" ∨
      dropLastSeparator d = d ∧ d.toList.getLast? ≠ some '/' := by
  have hlast : ∀ c, d.toList.getLast? = some c → d = String.ofList d.toList.dropLast ++ String.singleton c := by
    intro c hc
    obtain ⟨front, hfront⟩ := List.getLast?_eq_some_iff.1 hc
    rw [← String.toList_inj, hfront]
    simp
  unfold dropLastSeparator
  split
  · rename_i h
    exact Or.inl (hlast _ h)
  · rename_i h
    exact Or.inr (Or.inl (hlast _ h))
  · rename_i hslash _
    exact Or.inr (Or.inr ⟨rfl, hslash⟩)

/-- Where private files go that are put next to the public ones: into a directory next to theirs, or, behind slashes, inside
it. -/
theorem pieces_besidePath {d : String} {before : List String} {last : String}
    (h : (⟨dropSlashes d⟩ : Path).pieces = before ++ [last]) :
    (∃ z, (last = z ∨ last = z ++ "\\") ∧ (⟨besidePath d⟩ : Path).pieces = before ++ [z ++ "-aux"]) ∨
      ∃ k, (⟨besidePath d⟩ : Path).pieces = before ++ [last] ++ List.replicate k "" ++ ["-aux"] := by
  have haux : '/' ∉ "-aux".toList := by decide
  have hnext : ∀ t, t = dropSlashes d → (⟨t ++ "-aux"⟩ : Path).pieces = before ++ [last ++ "-aux"] := by
    rintro t rfl
    obtain ⟨b, z, hz, happend⟩ := Path.exists_pieces_append (dropSlashes d)
    obtain ⟨rfl, hlast⟩ := List.append_inj' (h.symm.trans hz) rfl
    rw [happend _ haux, (List.cons.inj hlast).1]
  obtain ⟨n, htext, hlast⟩ := exists_dropSlashes d
  have hnone : d.toList.getLast? ≠ some '/' → d = dropSlashes d := by
    intro hd
    cases n with
    | zero => exact String.toList_inj.1 (by simpa using htext)
    | succ n => exact absurd (by rw [htext]; simp [List.replicate_succ']) hd
  unfold besidePath
  rcases dropLastSeparator_cases d with hd | hd | ⟨hd, hno⟩
  · generalize dropLastSeparator d = t at hd
    cases n with
    | zero => exact absurd (by rw [← List.append_nil (dropSlashes d).toList, ← List.replicate_zero, ← htext, hd]; simp) hlast
    | succ n =>
      have ht : t.toList = (dropSlashes d).toList ++ List.replicate n '/' := by
        have hboth := congrArg String.toList hd
        rw [htext, List.replicate_succ', ← List.append_assoc, String.toList_append] at hboth
        exact (List.append_inj' hboth rfl).1.symm
      cases n with
      | zero => exact Or.inl ⟨last, Or.inl rfl, hnext t (String.toList_inj.1 (by simpa using ht))⟩
      | succ n => exact Or.inr ⟨n, by rw [Path.pieces_append_slashes ht, h, Path.pieces_of_not_mem haux]⟩
  · have hsame := hnone (by rw [hd]; simp)
    generalize dropLastSeparator d = t at hd
    obtain ⟨b, z, -, happend⟩ := Path.exists_pieces_append t
    have hpieces := happend "\\" (by decide)
    rw [← hd, hsame, h] at hpieces
    obtain ⟨rfl, hz⟩ := List.append_inj' hpieces rfl
    exact Or.inl ⟨z, Or.inr (List.cons.inj hz).1, happend _ haux⟩
  · exact Or.inl ⟨last, Or.inl rfl, hnext _ (hd.trans (hnone hno))⟩

/-! ## Layouts -/

/-- Where the directories of a layout are: straight paths from the start of the output directory lead to them, which end in
names; they are apart, unless they are one, and the private one does not have the name of the stage of the public one. -/
structure Layout.Placed (l : Layout) (out : Path) (name name' : String) : Prop where
  publicDir : l.publicDir.Descends name
  privateDir : l.privateDir.Descends name'
  publicStraight : l.publicDir.IsStraight
  privateStraight : l.privateDir.IsStraight
  publicStart : l.publicDir.isAbsolute = out.isAbsolute
  privateStart : l.privateDir.isAbsolute = out.isAbsolute
  apart : l.shared = false → ∀ cwd, Apart (l.publicDir.location cwd) (l.privateDir.location cwd)
  unstaged : name' ≠ Output.stageName name

/-- A text that can be put behind an output directory: it is relative and straight, and ends in a name. -/
structure Trails (s name : String) : Prop where
  relative : (⟨s⟩ : Path).isAbsolute = false
  straight : (⟨s⟩ : Path).IsStraight
  ends : (⟨s⟩ : Path).EndsIn name

/-- A deployment path can be put behind an output directory. -/
theorem Trails.of_isDeployPath {d name : String} (hd : isDeployPath d = true) (hends : (⟨dropSlashes d⟩ : Path).EndsIn name) :
    Trails (dropSlashes d) name :=
  ⟨(Path.isPlain_spec hd).1, .of_isPlain hd, hends⟩

/-- What is put behind an output directory that does not lead up leads down to a directory. -/
theorem Trails.descends_join {s name : String} (h : Trails s name) {out : Path} (hout : ".." ∉ out.names) :
    (out.join s).Descends name ∧ ".." ∉ (out.join s).names := by
  have hdown : ".." ∉ (out.join s).names := by
    rw [Path.names_join out h.relative, List.mem_append, not_or]
    exact ⟨hout, h.straight.not_mem_names⟩
  exact ⟨⟨h.ends.join out h.relative, .of_down hdown⟩, hdown⟩

/-- What is put behind an output directory of plain segments leads to a directory by plain segments. -/
theorem Trails.join {s name : String} (h : Trails s name) {out : Path} (hout : out.IsStraight) :
    (out.join s).Descends name ∧ (out.join s).IsStraight :=
  ⟨(h.descends_join hout.not_mem_names).1, hout.join h.relative h.straight⟩

/-- Directories that part in plain segments are apart if they are found to be neither one nor inside each other. -/
theorem Layout.apart_of_partsPlainly {l : Layout} (h : l.publicDir.PartsPlainly l.privateDir) (hshared : l.shared = false)
    (hnested : l.nested = false) (cwd : Location) : Apart (l.publicDir.location cwd) (l.privateDir.location cwd) := by
  rw [nested, hshared, Bool.not_false, Bool.true_and, Bool.or_eq_false_iff] at hnested
  constructor
  · rw [← h.symm.startsWith_iff, hnested.1]
    exact Bool.false_ne_true
  · rw [← h.startsWith_iff, hnested.2]
    exact Bool.false_ne_true

/-- Directories that are not inside each other are placed. -/
theorem Layout.placed_of_join {l : Layout} {out extra : Path} {s s' name name' : String} (hout : out.IsStraight)
    (hextra : extra.IsStraight) (habs : extra.isAbsolute = out.isAbsolute) (hs : Trails s name) (hs' : Trails s' name')
    (hpublic : l.publicDir = out.join s) (hprivate : l.privateDir = extra.join s') (hnested : l.nested = false)
    (hunstaged : name' ≠ Output.stageName name) : l.Placed out name name' := by
  obtain ⟨hdescends, hstraight⟩ := hs.join hout
  obtain ⟨hdescends', hstraight'⟩ := hs'.join hextra
  have hstart := out.isAbsolute_join hs.relative
  have hstart' := (extra.isAbsolute_join hs'.relative).trans habs
  rw [← hpublic] at hdescends hstraight hstart
  rw [← hprivate] at hdescends' hstraight' hstart'
  refine ⟨hdescends, hdescends', hstraight, hstraight', hstart, hstart', fun hshared cwd => ?_, hunstaged⟩
  exact apart_of_partsPlainly (hstraight.partsPlainly hstraight' (hstart.trans hstart'.symm)) hshared hnested cwd

/-- An accepted layout is the one for the deploy path, which is usable, and its directories are not inside each other. -/
theorem Layout.resolve_eq_ok {mod : Module} {out : Path} {extra : Option Path} {l : Layout}
    (h : Layout.resolve mod out extra = .ok l) :
    isDeployPath mod.deployTo = true ∧ l = .candidate mod.deployTo out extra ∧ l.nested = false := by
  unfold resolve at h
  split at h
  · rename_i hd
    dsimp only at h
    split at h
    · nomatch h
    · rename_i hnested
      obtain rfl := Except.ok.inj h
      exact ⟨hd, rfl, by simpa using hnested⟩
  · nomatch h

/-- The public directory is below the output directory, wherever the private one is. -/
theorem Layout.publicDir_candidate (d : String) (out : Path) (extra : Option Path) :
    (candidate d out extra).publicDir = out.join (dropSlashes d) := by
  cases extra with
  | none => simp only [candidate]
  | some extra => simp only [candidate]

theorem Layout.privateDir_candidate_none (d : String) (out : Path) :
    (candidate d out none).privateDir = out.join (besidePath d) := by
  simp only [candidate]

theorem Layout.privateDir_candidate_some (d : String) (out extra : Path) :
    (candidate d out (some extra)).privateDir = extra.join (dropSlashes d) := by
  simp only [candidate]

theorem Layout.beside_candidate (d : String) (out : Path) (extra : Option Path) :
    (candidate d out extra).beside = extra.isNone := by
  cases extra with
  | none => simp only [candidate, Option.isNone_none]
  | some extra => simp only [candidate, Option.isNone_some]

/-- Where private files have a directory of their own. -/
theorem Layout.placed_extra {mod : Module} {out extra : Path} {l : Layout} {name : String} (hout : out.IsStraight)
    (hextra : extra.IsStraight) (habs : extra.isAbsolute = out.isAbsolute)
    (hends : (⟨dropSlashes mod.deployTo⟩ : Path).EndsIn name) (h : Layout.resolve mod out (some extra) = .ok l) :
    l.Placed out name name := by
  obtain ⟨hd, hl, hnested⟩ := resolve_eq_ok h
  have hs := Trails.of_isDeployPath hd hends
  have hpublicDir : l.publicDir = out.join (dropSlashes mod.deployTo) := hl ▸ publicDir_candidate ..
  have hprivateDir : l.privateDir = extra.join (dropSlashes mod.deployTo) := hl ▸ privateDir_candidate_some ..
  exact placed_of_join hout hextra habs hs hs hpublicDir hprivateDir hnested (Output.stageName_ne name)

/-- What stands in front of the last name of a text that can be put behind an output directory: its first piece is a name, and
nothing leads up. -/
structure Leads (front : List String) : Prop where
  first : ∀ s rest, front = s :: rest → Path.isIdle s = false
  down : ".." ∉ front

/-- The beginning of what leads down leads down. -/
theorem Leads.of_isPrefix {l l' : List String} (h : Leads l') (hpre : l <+: l') : Leads l := by
  refine ⟨fun s rest heq => ?_, fun hm => h.down (hpre.subset hm)⟩
  obtain ⟨more, rfl⟩ := hpre
  rw [heq] at h
  exact h.first s _ rfl

/-- Something is put behind pieces that begin with a name. -/
theorem Leads.append {l tail : List String} (h : Leads l) (hne : l ≠ []) (htail : ".." ∉ tail) : Leads (l ++ tail) := by
  obtain ⟨first, rest, rfl⟩ := List.exists_cons_of_ne_nil hne
  refine ⟨fun s more heq => ?_, ?_⟩
  · rw [← (List.cons.inj heq).1]
    exact h.first first rest rfl
  · rw [List.mem_append, not_or]
    exact ⟨h.down, htail⟩

/-- The pieces of a relative path of plain segments begin with a name. -/
theorem leads_pieces {p : Path} (hrel : p.isAbsolute = false) (hp : p.IsStraight) (hne : p.text ≠ "") : Leads p.pieces := by
  refine ⟨fun t rest hpieces => ?_, fun hm => hp.not_mem_names ?_⟩
  · have hhere := hp.1
    rw [Path.mem_components_iff_front _ (Or.inr rfl), Path.front, hrel, hpieces] at hhere
    have hempty : t ≠ "" := by
      rintro rfl
      by_cases hrest : rest = []
      · rw [← p.glue_pieces, hpieces, hrest] at hne
        exact hne rfl
      · have habs := (Path.isAbsolute_iff_of_cons hpieces hrest).2 rfl
        rw [hrel] at habs
        cases habs
    have hdot : t ≠ "." := by
      rintro rfl
      exact hhere rfl
    simp [Path.isIdle, hempty, hdot]
  · exact List.mem_filter.2 ⟨hm, rfl⟩

/-- A plain path has a name. -/
theorem names_ne_nil_of_isPlain {p : Path} (h : p.isPlain = true) : p.names ≠ [] := by
  have hleads := leads_pieces (Path.isPlain_spec h).1 (.of_isPlain h) ((Path.isPlain_iff p).1 h).1
  obtain ⟨first, rest, hpieces⟩ := List.exists_cons_of_ne_nil p.pieces_ne_nil
  have hmem : first ∈ p.names := by
    rw [Path.names, hpieces, List.filter_cons_of_pos (by rw [hleads.first first rest hpieces]; rfl)]
    exact List.mem_cons_self
  exact List.ne_nil_of_mem hmem

/-- What can be put behind an output directory is plain. -/
theorem Trails.isPlain {s name : String} (h : Trails s name) : (⟨s⟩ : Path).isPlain = true := by
  refine Path.isPlain_of_names h.ends.text_ne h.relative (fun hhead => h.straight.1 ?_) h.straight.not_mem_names
  rw [Path.mem_components_iff_front _ (Or.inr rfl), Path.front, h.relative, hhead]
  rfl

theorem Trails.exists_front {s name : String} (h : Trails s name) :
    ∃ front, (⟨s⟩ : Path).pieces = front ++ [name] ∧ Leads front := by
  obtain ⟨front, hpieces⟩ := List.getLast?_eq_some_iff.1 h.ends.1
  refine ⟨front, hpieces, (leads_pieces h.relative h.straight h.ends.text_ne).of_isPrefix ?_⟩
  rw [hpieces]
  exact List.prefix_append _ _

theorem Trails.of_pieces {s name : String} {front : List String} (hpieces : (⟨s⟩ : Path).pieces = front ++ [name])
    (hfront : Leads front) (hname : Path.isIdle name = false ∧ name ≠ "..") : Trails s name := by
  obtain ⟨first, rest, hcons, hfirst⟩ : ∃ first rest, (⟨s⟩ : Path).pieces = first :: rest ∧ Path.isIdle first = false := by
    cases front with
    | nil => exact ⟨name, [], hpieces, hname.1⟩
    | cons t front => exact ⟨t, _, hpieces, hfront.first t front rfl⟩
  have hrel : (⟨s⟩ : Path).isAbsolute = false := by
    rw [← Bool.not_eq_true, Path.isAbsolute_iff, hcons]
    rintro ⟨t, r, heq⟩
    obtain ⟨rfl, -⟩ := List.cons.inj heq
    cases hfirst
  refine ⟨hrel, ⟨?_, ?_⟩, ?_, hname⟩
  · rw [Path.mem_components_iff_front _ (Or.inr rfl), Path.front, hrel, hcons]
    intro hhere
    split at hhere
    · cases hhere
    · split at hhere
      · rename_i hdot
        obtain rfl := Option.some.inj hdot
        cases hfirst
      · cases hhere
  · rw [Path.above_mem_components_iff]
    intro hm
    have hpiece := (List.mem_filter.1 hm).1
    rw [hpieces, List.mem_append, List.mem_singleton] at hpiece
    exact hpiece.elim hfront.down hname.2.symm
  · rw [hpieces, List.getLast?_concat]

/-- A name that private files are put under next to the public ones. -/
theorem isName_aux (z : String) : Path.isIdle (z ++ "-aux") = false ∧ z ++ "-aux" ≠ ".." := by
  have hne : ∀ t : String, t.length ≤ 3 → z ++ "-aux" ≠ t := by
    rintro t ht rfl
    rw [String.length_append] at ht
    have haux : "-aux".length = 4 := rfl
    omega
  simp [Path.isIdle, hne "" (by decide), hne "." (by decide), hne ".." (by decide)]

/-- The deploy path of private files that are put next to the public ones. -/
theorem trails_besidePath {d name : String} (hs : Trails (dropSlashes d) name) :
    ∃ z, Trails (besidePath d) (z ++ "-aux") ∧
      ((name = z ∨ name = z ++ "\\") ∧
          (⟨besidePath d⟩ : Path).names = (⟨dropSlashes d⟩ : Path).names.dropLast ++ [z ++ "-aux"] ∨
        (⟨besidePath d⟩ : Path).names = (⟨dropSlashes d⟩ : Path).names ++ [z ++ "-aux"]) := by
  obtain ⟨front, hpieces, hfront⟩ := hs.exists_front
  have hnames : (⟨dropSlashes d⟩ : Path).names = front.filter (fun t => !Path.isIdle t) ++ [name] := by
    rw [Path.names, hpieces]
    simp [hs.ends.2.1]
  rcases pieces_besidePath hpieces with ⟨z, hz, hb⟩ | ⟨k, hb⟩
  · refine ⟨z, .of_pieces hb hfront (isName_aux z), Or.inl ⟨hz, ?_⟩⟩
    rw [hnames, List.dropLast_concat, Path.names, hb]
    simp [(isName_aux z).1]
  · have hlonger : Leads (front ++ [name] ++ List.replicate k "") := by
      have hall := leads_pieces hs.relative hs.straight hs.ends.text_ne
      rw [hpieces] at hall
      exact hall.append (by simp) (by simp [List.mem_replicate])
    refine ⟨"", .of_pieces hb hlonger (isName_aux ""), Or.inr ?_⟩
    have hempty : (List.replicate k "").filter (fun t => !Path.isIdle t) = [] := by
      simp [Path.isIdle]
    have haux : Path.isIdle "-aux" = false := rfl
    rw [hnames, Path.names, hb]
    simp [List.filter_append, hs.ends.2.1, hempty, haux]

/-- A deploy path begins with a name. -/
theorem leads_dropSlashes {d : String} (hd : isDeployPath d = true) : Leads (⟨dropSlashes d⟩ : Path).pieces := by
  exact leads_pieces (Path.isPlain_spec hd).1 (.of_isPlain hd) ((Path.isPlain_iff _).1 hd).1

/-- Whatever a deploy path ends in, that of private files next to the public ones ends in a name. -/
theorem exists_trails_besidePath {d : String} (hd : isDeployPath d = true) : ∃ name, Trails (besidePath d) name := by
  have hleads := leads_dropSlashes hd
  rcases List.eq_nil_or_concat' (⟨dropSlashes d⟩ : Path).pieces with hnil | ⟨front, last, hpieces⟩
  · exact absurd hnil (Path.pieces_ne_nil _)
  · rcases pieces_besidePath hpieces with ⟨z, -, hb⟩ | ⟨k, hb⟩
    · refine ⟨_, .of_pieces hb (hleads.of_isPrefix ?_) (isName_aux z)⟩
      rw [hpieces]
      exact List.prefix_append _ _
    · rw [hpieces] at hleads
      exact ⟨_, .of_pieces hb (hleads.append (by simp) (by simp [List.mem_replicate])) (isName_aux "")⟩

/-- The deploy path of private files that are put next to the public ones is plain. -/
theorem isPlain_besidePath {d : String} (hd : isDeployPath d = true) : (⟨besidePath d⟩ : Path).isPlain = true := by
  obtain ⟨name, htrails⟩ := exists_trails_besidePath hd
  exact htrails.isPlain

/-- Where private files are put next to the public ones, both are placed, and none is in the way of the other. -/
theorem Layout.placed_beside {mod : Module} {out : Path} {l : Layout} {name : String} (hout : out.IsStraight)
    (hends : (⟨dropSlashes mod.deployTo⟩ : Path).EndsIn name) (h : Layout.resolve mod out none = .ok l) :
    ∃ name', l.Placed out name name' ∧ l.shared = false ∧
      ∀ cwd, ¬(Output.stagingDir l.privateDir).location cwd <+: l.publicDir.location cwd := by
  obtain ⟨hd, hl, hnested⟩ := resolve_eq_ok h
  have hs := Trails.of_isDeployPath hd hends
  obtain ⟨z, hs', hnames⟩ := trails_besidePath hs
  have hunstaged : z ++ "-aux" ≠ Output.stageName name := by
    intro heq
    have hlast := congrArg (fun t => t.toList.reverse.head?) heq
    simp [Output.stageName] at hlast
  have hpublicDir : l.publicDir = out.join (dropSlashes mod.deployTo) := hl ▸ publicDir_candidate ..
  have hprivateDir : l.privateDir = out.join (besidePath mod.deployTo) := hl ▸ privateDir_candidate_none ..
  have hplaced := placed_of_join hout hout rfl hs hs' hpublicDir hprivateDir hnested hunstaged
  have hpublic := fun cwd => Path.location_join hs.relative hs.straight.not_mem_names out cwd
  have hprivate := fun cwd => Path.location_join hs'.relative hs'.straight.not_mem_names out cwd
  rw [hs.ends.names_eq] at hpublic
  rw [← hpublicDir] at hpublic
  rw [← hprivateDir] at hprivate
  refine ⟨_, hplaced, ?_⟩
  rcases hnames with ⟨hz, hnames⟩ | hnames
  · -- the directories have different names in one place, and the name of a stage is longer than both
    rw [hnames] at hprivate
    have hshort : name.length < (z ++ "-aux").length := by
      have haux : "-aux".length = 4 := rfl
      have hone : "\\".length = 1 := rfl
      rcases hz with rfl | rfl
      · rw [String.length_append]
        omega
      · rw [String.length_append, String.length_append]
        omega
    constructor
    · rw [← Bool.not_eq_true]
      intro hshared
      have hsame := Path.location_eq_of_sameAs hshared []
      rw [hpublic, hprivate, List.append_cancel_left_eq, List.append_cancel_left_eq, List.singleton_inj] at hsame
      rw [hsame] at hshort
      exact Nat.lt_irrefl _ hshort
    · intro cwd hpre
      rw [(Output.stagingDir_spec hplaced.privateDir).2, hpublic, hprivate, ← List.append_assoc, List.dropLast_concat,
        ← List.append_assoc] at hpre
      have hname : Output.stageName (z ++ "-aux") = name := by simpa using hpre.eq_of_length (by simp)
      rw [← hname, Output.length_stageName] at hshort
      omega
  · -- the private directory would be inside the public one
    have hpre : ∀ cwd, l.publicDir.location cwd <+: l.privateDir.location cwd := by
      intro cwd
      rw [hpublic, hprivate, hnames, ← hs.ends.names_eq, ← List.append_assoc]
      exact List.prefix_append _ _
    cases hshared : l.shared with
    | false => exact absurd (hpre []) (hplaced.apart hshared []).1
    | true =>
      have hsame := Path.location_eq_of_sameAs hshared []
      rw [hpublic, hprivate, hnames, ← hs.ends.names_eq] at hsame
      simp at hsame

end DeferredBinding
