import DeferredBinding.Proofs.Deploy.Failure

/-!
# What an accepted layout guarantees

The directories of an accepted layout are strictly below the output directories that were given, and by their components neither
is inside the other (`resolve_below_roots`). Where paths lead is another matter than how they are written. For output directories
that part in plain segments the check on components is right, and for any others it is right only if they happen to lead apart
(`oneOrApart_iff_of_resolve`, `dotted_not_oneOrApart`). Where none is given for private files, these get a directory next to the
public one, unless the deploy path has more than one slash or a dot at its end (`resolve_beside`, `doubled_slash_nested`).
-/

namespace DeferredBinding

/-- A path goes on from another one by plain segments, of which there is one at least. -/
def Path.Continues (root p : Path) : Prop :=
  ∃ rest : List String, rest ≠ [] ∧ p.components = root.components ++ rest.map .name

/-- A plain path inside another one goes on from it. -/
theorem Path.continues_join (root : Path) {s : String} (hs : (⟨s⟩ : Path).isPlain = true) : root.Continues (root.join s) :=
  ⟨_, names_ne_nil_of_isPlain hs, root.components_join hs⟩

namespace Layout

variable {mod : Module} {out : Path} {extra : Option Path} {l : Layout}

/-! ## Below the output directories -/

/-- Directories are found to be nested if they have not the same components, but one begins with the other. -/
theorem nested_iff (l : Layout) :
    l.nested = true ↔ l.publicDir.components ≠ l.privateDir.components ∧
      (l.publicDir.components <+: l.privateDir.components ∨ l.privateDir.components <+: l.publicDir.components) := by
  rw [nested, Bool.and_eq_true, Bool.or_eq_true, shared, Path.sameAs, Bool.not_eq_true', beq_eq_false_iff_ne, Path.startsWith,
    Path.startsWith, List.isPrefixOf_iff_prefix, List.isPrefixOf_iff_prefix, or_comm]

theorem nested_eq_false_iff (l : Layout) :
    l.nested = false ↔ (l.publicDir.components ≠ l.privateDir.components →
      ¬l.publicDir.components <+: l.privateDir.components ∧ ¬l.privateDir.components <+: l.publicDir.components) := by
  rw [← Bool.not_eq_true, nested_iff, not_and, not_or]

/-- A usable deploy path is rejected only for directories that are nested. -/
theorem resolve_of_isDeployPath (hd : isDeployPath mod.deployTo = true) :
    resolve mod out extra =
      if (candidate mod.deployTo out extra).nested then
        .error (.nestedOutputs (candidate mod.deployTo out extra).publicDir (candidate mod.deployTo out extra).privateDir)
      else .ok (candidate mod.deployTo out extra) := by
  rw [resolve, if_pos hd]

/-- A deploy path is usable if, without its slashes, it has text and nothing but names. -/
theorem isDeployPath_eq_false_iff (d : String) :
    isDeployPath d = false ↔ dropSlashes d = "" ∨ ∃ c ∈ (⟨dropSlashes d⟩ : Path).components, ∀ s, c ≠ .name s := by
  rw [← Bool.not_eq_true, isDeployPath, Path.isPlain_iff]
  simp only [ne_eq, not_and_or, not_not, not_forall, not_exists, exists_prop]

/-- With a usable deploy path, the directories go on from the output directories. -/
theorem continues_candidate {d : String} (hd : isDeployPath d = true) (out : Path) (extra : Option Path) :
    out.Continues (candidate d out extra).publicDir ∧ (extra.getD out).Continues (candidate d out extra).privateDir := by
  rw [publicDir_candidate]
  refine ⟨out.continues_join hd, ?_⟩
  cases extra with
  | none =>
    rw [privateDir_candidate_none]
    exact out.continues_join (isPlain_besidePath hd)
  | some root =>
    rw [privateDir_candidate_some]
    exact root.continues_join hd

theorem continues_of_resolve (h : resolve mod out extra = .ok l) :
    out.Continues l.publicDir ∧ (extra.getD out).Continues l.privateDir := by
  obtain ⟨hd, rfl, -⟩ := resolve_eq_ok h
  exact continues_candidate hd out extra

end Layout

/-- A layout is rejected for its deploy path exactly if that has, without its slashes, no text or a part that is no name. The
directories of an accepted layout go on from the output directories by names, and they have the same components, or neither has
those of the other in front. Otherwise a layout is rejected for two such directories of which one does have those of the other
in front, and more. -/
theorem resolve_below_roots (mod : Module) (out : Path) (extra : Option Path) :
    (∀ d, Layout.resolve mod out extra = .error (.invalidDeployPath d) ↔
      d = mod.deployTo ∧ (dropSlashes mod.deployTo = "" ∨
        ∃ c ∈ (⟨dropSlashes mod.deployTo⟩ : Path).components, ∀ s, c ≠ .name s)) ∧
      (∀ l, Layout.resolve mod out extra = .ok l →
        out.Continues l.publicDir ∧ (extra.getD out).Continues l.privateDir ∧
          (l.publicDir.components ≠ l.privateDir.components →
            ¬l.publicDir.components <+: l.privateDir.components ∧
              ¬l.privateDir.components <+: l.publicDir.components)) ∧
      ∀ e, Layout.resolve mod out extra = .error e →
        e = .invalidDeployPath mod.deployTo ∨
          ∃ p q, e = .nestedOutputs p q ∧ out.Continues p ∧ (extra.getD out).Continues q ∧ p.components ≠ q.components ∧
            (p.components <+: q.components ∨ q.components <+: p.components) := by
  refine ⟨fun d => ?_, fun l hl => ?_, fun e he => ?_⟩
  · rw [← Layout.isDeployPath_eq_false_iff]
    cases hd : isDeployPath mod.deployTo with
    | true =>
      rw [Layout.resolve_of_isDeployPath hd]
      split
      · simp
      · simp
    | false =>
      rw [Layout.resolve, hd, if_neg Bool.false_ne_true]
      simp [eq_comm]
  · obtain ⟨hpublic, hprivate⟩ := Layout.continues_of_resolve hl
    obtain ⟨-, -, hnested⟩ := Layout.resolve_eq_ok hl
    exact ⟨hpublic, hprivate, l.nested_eq_false_iff.1 hnested⟩
  · cases hd : isDeployPath mod.deployTo with
    | true =>
      rw [Layout.resolve_of_isDeployPath hd] at he
      split at he
      · rename_i hnested
        obtain ⟨hpublic, hprivate⟩ := Layout.continues_candidate hd out extra
        obtain ⟨hne, hprefix⟩ := (Layout.nested_iff _).1 hnested
        exact Or.inr ⟨_, _, (Except.error.inj he).symm, hpublic, hprivate, hne, hprefix⟩
      · nomatch he
    | false =>
      rw [Layout.resolve, hd, if_neg Bool.false_ne_true] at he
      exact Or.inl (Except.error.inj he).symm

/-- `page` below an absolute directory, with private files in a directory that a dot leads to, and with private files inside the
public directory. -/
theorem page_below_roots :
    (∃ l, Layout.resolve page ⟨"/srv//www/"⟩ (some ⟨"./aside"⟩) = .ok l ∧
      (⟨"/srv//www/"⟩ : Path).Continues l.publicDir ∧ (⟨"./aside"⟩ : Path).Continues l.privateDir ∧
      ¬l.publicDir.components <+: l.privateDir.components ∧ ¬l.privateDir.components <+: l.publicDir.components) ∧
      ∃ p q, Layout.resolve page ⟨"out"⟩ (some ⟨"out/hello"⟩) = .error (.nestedOutputs p q) ∧
        (⟨"out"⟩ : Path).Continues p ∧ (⟨"out/hello"⟩ : Path).Continues q := by
  constructor
  · have hl : Layout.resolve page ⟨"/srv//www/"⟩ (some ⟨"./aside"⟩) =
        .ok (.candidate page.deployTo ⟨"/srv//www/"⟩ (some ⟨"./aside"⟩)) := by
      decide +kernel
    have hne : (Layout.candidate page.deployTo ⟨"/srv//www/"⟩ (some ⟨"./aside"⟩)).publicDir.components ≠
        (Layout.candidate page.deployTo ⟨"/srv//www/"⟩ (some ⟨"./aside"⟩)).privateDir.components := by
      decide +kernel
    obtain ⟨hpublic, hprivate, hapart⟩ := (resolve_below_roots page ⟨"/srv//www/"⟩ (some ⟨"./aside"⟩)).2.1 _ hl
    exact ⟨_, hl, hpublic, hprivate, hapart hne⟩
  · have herror : Layout.resolve page ⟨"out"⟩ (some ⟨"out/hello"⟩) =
        .error (.nestedOutputs ⟨"out/hello"⟩ ⟨"out/hello/hello"⟩) := by
      decide +kernel
    rcases (resolve_below_roots page ⟨"out"⟩ (some ⟨"out/hello"⟩)).2.2 _ herror with hinvalid | ⟨p, q, heq, hpublic, hprivate, -⟩
    · nomatch hinvalid
    · exact ⟨p, q, heq ▸ herror, hpublic, hprivate⟩

/-! ## One directory or two -/

/-- The directories of a layout are one and are taken for one, or neither is at or below the other. -/
def Layout.OneOrApart (l : Layout) (cwd : Location) : Prop :=
  l.publicDir.location cwd = l.privateDir.location cwd ∧ l.shared = true ∨
    Apart (l.publicDir.location cwd) (l.privateDir.location cwd)

namespace Layout

variable {mod : Module} {out root : Path} {extra : Option Path} {l : Layout}

/-- If the output directories part in plain segments, so do the directories of an accepted layout, which are one or apart then. -/
theorem oneOrApart_of_partsPlainly (h : resolve mod out extra = .ok l) (hparts : out.PartsPlainly (extra.getD out))
    (cwd : Location) : l.OneOrApart cwd := by
  obtain ⟨-, -, hnested⟩ := resolve_eq_ok h
  obtain ⟨⟨rest, -, hpublic⟩, ⟨rest', -, hprivate⟩⟩ := continues_of_resolve h
  obtain ⟨front, a, b, hout, hextra⟩ := hparts
  have hdirs : l.publicDir.PartsPlainly l.privateDir := by
    refine ⟨front, a ++ rest, b ++ rest', ?_, ?_⟩
    · rw [hpublic, hout, List.append_assoc, List.map_append]
    · rw [hprivate, hextra, List.append_assoc, List.map_append]
  cases hshared : l.shared with
  | true => exact Or.inl ⟨Path.location_eq_of_sameAs hshared cwd, hshared⟩
  | false => exact Or.inr (apart_of_partsPlainly hdirs hshared hnested cwd)

/-- Behind both output directories stand the names of the deploy path. -/
theorem locations_of_resolve (h : resolve mod out (some root) = .ok l) (cwd : Location) :
    l.publicDir.location cwd = out.location cwd ++ (⟨mod.deployTo⟩ : Path).names ∧
      l.privateDir.location cwd = root.location cwd ++ (⟨mod.deployTo⟩ : Path).names := by
  obtain ⟨hd, rfl, -⟩ := resolve_eq_ok h
  obtain ⟨hrel, hdown⟩ := Path.isPlain_spec hd
  rw [publicDir_candidate, privateDir_candidate_some, Path.location_join hrel hdown, Path.location_join hrel hdown,
    names_dropSlashes]
  exact ⟨rfl, rfl⟩

/-- Directories that are taken for one are behind output directories with the same components. -/
theorem partsPlainly_of_shared (h : resolve mod out (some root) = .ok l) (hshared : l.shared = true) :
    out.PartsPlainly root := by
  obtain ⟨hd, rfl, -⟩ := resolve_eq_ok h
  have hsame := beq_iff_eq.1 hshared
  rw [publicDir_candidate, privateDir_candidate_some, Path.components_join _ hd, Path.components_join _ hd,
    List.append_cancel_right_eq] at hsame
  exact ⟨root.components, [], [], by simp [hsame], by simp⟩

end Layout

/-- The directories of an accepted layout are one or apart unless two output directories are given that do not part in plain
segments, and the deploy path leads from one to a place at or below that which it leads to from the other. -/
theorem oneOrApart_iff_of_resolve {mod : Module} {out : Path} {extra : Option Path} {l : Layout}
    (h : Layout.resolve mod out extra = .ok l) (cwd : Location) :
    l.OneOrApart cwd ↔ ∀ root, extra = some root → out.PartsPlainly root ∨
      Apart (out.location cwd ++ (⟨mod.deployTo⟩ : Path).names) (root.location cwd ++ (⟨mod.deployTo⟩ : Path).names) := by
  cases extra with
  | none =>
    have hout : out.PartsPlainly out := ⟨out.components, [], [], by simp, by simp⟩
    exact ⟨fun _ root hroot => (nomatch hroot), fun _ => Layout.oneOrApart_of_partsPlainly h hout cwd⟩
  | some root =>
    obtain ⟨hpublic, hprivate⟩ := Layout.locations_of_resolve h cwd
    rw [← hpublic]
    constructor
    · rintro hone root' ⟨⟩
      rw [← hprivate]
      rcases hone with ⟨-, hshared⟩ | hapart
      · exact Or.inl (Layout.partsPlainly_of_shared h hshared)
      · exact Or.inr hapart
    · intro hroot
      rcases hroot root rfl with hparts | hapart
      · exact Layout.oneOrApart_of_partsPlainly h hparts cwd
      · rw [← hprivate] at hapart
        exact Or.inr hapart

/-- Two output directories that are next to each other, further up. -/
theorem upward_oneOrApart :
    ∃ l, Layout.resolve page ⟨"../site"⟩ (some ⟨"../aside"⟩) = .ok l ∧ ∀ cwd, l.OneOrApart cwd := by
  have hl : Layout.resolve page ⟨"../site"⟩ (some ⟨"../aside"⟩) =
      .ok (.candidate page.deployTo ⟨"../site"⟩ (some ⟨"../aside"⟩)) := by
    decide +kernel
  have hparts : (⟨"../site"⟩ : Path).PartsPlainly ⟨"../aside"⟩ :=
    ⟨[.above], ["site"], ["aside"], by decide +kernel, by decide +kernel⟩
  refine ⟨_, hl, fun cwd => (oneOrApart_iff_of_resolve hl cwd).2 fun root hroot => Or.inl ?_⟩
  rw [← Option.some.inj hroot]
  exact hparts

/-- One output directory that is written in two ways is taken for two, wherever the paths start from. -/
theorem dotted_not_oneOrApart :
    ∃ l, Layout.resolve page ⟨"out"⟩ (some ⟨"./out"⟩) = .ok l ∧ ∀ cwd, ¬l.OneOrApart cwd := by
  have hl : Layout.resolve page ⟨"out"⟩ (some ⟨"./out"⟩) = .ok (.candidate page.deployTo ⟨"out"⟩ (some ⟨"./out"⟩)) := by
    decide +kernel
  have hshared : (Layout.candidate page.deployTo ⟨"out"⟩ (some ⟨"./out"⟩)).shared = false := by decide +kernel
  have hroot : ∀ cwd, (⟨"out"⟩ : Path).location cwd = (⟨"./out"⟩ : Path).location cwd := fun cwd => rfl
  refine ⟨_, hl, fun cwd => ?_⟩
  obtain ⟨hpublic, hprivate⟩ := Layout.locations_of_resolve hl cwd
  rintro (⟨-, hone⟩ | hapart)
  · rw [hshared] at hone
    nomatch hone
  · rw [hpublic, hprivate, hroot] at hapart
    exact hapart.1 List.prefix_rfl

/-! ## A directory next to the public one -/

/-- The private directory is next to the public one, under its name with an ending. -/
def Layout.Siblings (l : Layout) : Prop :=
  ∃ parent name, l.publicDir.components = parent ++ [.name name] ∧ l.privateDir.components = parent ++ [.name (name ++ "-aux")]

theorem dropSlashes_append_slash (s : String) : dropSlashes (s ++ "/") = dropSlashes s := by
  simp [dropSlashes]

theorem besidePath_append_slash (s : String) : besidePath (s ++ "/") = s ++ "-aux" := by
  simp [besidePath, dropLastSeparator]

/-- A deploy path is given a slash at its end. -/
theorem exists_withSlash (d : String) : ∃ s, withSlash d = s ++ "/" := by
  unfold withSlash
  split
  · rename_i hlast
    obtain ⟨before, hbefore⟩ := List.getLast?_eq_some_iff.1 (beq_iff_eq.1 hlast)
    refine ⟨String.ofList before, ?_⟩
    rw [← String.toList_inj, hbefore]
    simp
  · exact ⟨d, rfl⟩

/-- A module file that is accepted gives a usable deploy path, with a slash at its end. -/
theorem ModuleFile.deployTo_of_toModule {f : ModuleFile} {mod : Module} (h : f.toModule = .ok mod) :
    isDeployPath mod.deployTo = true ∧ ∃ s, mod.deployTo = s ++ "/" := by
  unfold toModule at h
  by_cases hname : (Text.trimBlanks f.name.toList).isEmpty = true
  · rw [if_pos hname] at h
    nomatch h
  · rw [if_neg hname] at h
    cases hm : Model.empty.declare f.bindings f.configurations with
    | error e =>
      rw [hm] at h
      nomatch h
    | ok properties =>
      rw [hm] at h
      dsimp only [bind, Except.bind] at h
      cases hdeploy : f.deployTo with
      | none =>
        simp only [hdeploy] at h
        split at h
        · nomatch h
        · rename_i hd
          rw [← Except.ok.inj h]
          rw [Bool.not_eq_true', Bool.not_eq_false] at hd
          exact ⟨hd, f.name, rfl⟩
      | some d =>
        simp only [hdeploy] at h
        split at h
        · nomatch h
        · rename_i hd
          rw [← Except.ok.inj h]
          rw [Bool.not_eq_true', Bool.not_eq_false] at hd
          exact ⟨hd, exists_withSlash d⟩

theorem Module.deployTo_of_ofText {text : String} {mod : Module} (h : Module.ofText text = .ok mod) :
    isDeployPath mod.deployTo = true ∧ ∃ s, mod.deployTo = s ++ "/" := by
  unfold ofText at h
  split at h
  · exact ModuleFile.deployTo_of_toModule h
  · nomatch h

/-- Where a deploy path with one slash at its end is deployed to, and where private files go next to it: under a name with an
ending where the name stood, or below the public directory if no name stands before the slash. -/
theorem names_besidePath {s : String} (hdown : ".." ∉ (⟨s⟩ : Path).names) :
    (∃ parent name, (⟨s⟩ : Path).EndsIn name ∧ (⟨s⟩ : Path).names = parent ++ [name] ∧
        (⟨besidePath (s ++ "/")⟩ : Path).names = parent ++ [name ++ "-aux"]) ∨
      (¬∃ name, (⟨s⟩ : Path).EndsIn name) ∧
        ∃ name, (⟨besidePath (s ++ "/")⟩ : Path).names = (⟨s⟩ : Path).names ++ [name] := by
  obtain ⟨before, z, hpieces, happend⟩ := Path.exists_pieces_append s
  have haux : (⟨besidePath (s ++ "/")⟩ : Path).names = before.filter (fun t => !Path.isIdle t) ++ [z ++ "-aux"] := by
    rw [besidePath_append_slash, Path.names, happend "-aux" (by decide), List.filter_append]
    simp [(isName_aux z).1]
  cases hidle : Path.isIdle z with
  | true =>
    refine Or.inr ⟨?_, z ++ "-aux", ?_⟩
    · rintro ⟨name, hlast, hname, -⟩
      rw [hpieces, List.getLast?_concat] at hlast
      obtain rfl := Option.some.inj hlast
      rw [hidle] at hname
      cases hname
    · rw [haux, Path.names, hpieces, List.filter_append]
      simp [hidle]
  | false =>
    have hnames : (⟨s⟩ : Path).names = before.filter (fun t => !Path.isIdle t) ++ [z] := by
      rw [Path.names, hpieces, List.filter_append]
      simp [hidle]
    refine Or.inl ⟨_, z, ⟨by rw [hpieces, List.getLast?_concat], hidle, ?_⟩, hnames, haux⟩
    rintro rfl
    exact hdown (by rw [hnames]; simp)

namespace Layout

variable {s : String}

/-- The components of the directories where none is given for private files. -/
theorem components_candidate_none (hd : isDeployPath (s ++ "/") = true) (out : Path) :
    (candidate (s ++ "/") out none).publicDir.components = out.components ++ (⟨s⟩ : Path).names.map .name ∧
      (candidate (s ++ "/") out none).privateDir.components =
        out.components ++ (⟨besidePath (s ++ "/")⟩ : Path).names.map .name := by
  rw [publicDir_candidate, privateDir_candidate_none, Path.components_join _ hd, Path.components_join _ (isPlain_besidePath hd),
    dropSlashes_append_slash, names_dropSlashes]
  exact ⟨rfl, rfl⟩

/-- Directories in one place with different names are not nested. -/
theorem nested_of_siblings {l : Layout} (h : l.Siblings) : l.nested = false := by
  obtain ⟨parent, name, hpublic, hprivate⟩ := h
  have hne : name ≠ name ++ "-aux" := by
    intro heq
    have hlength := congrArg String.length heq
    have haux : "-aux".length = 4 := rfl
    rw [String.length_append] at hlength
    omega
  rw [nested_eq_false_iff, hpublic, hprivate]
  simp [hne, hne.symm]

/-- A directory below another one is found to be nested. -/
theorem nested_of_components {l : Layout} {name : String}
    (h : l.privateDir.components = l.publicDir.components ++ [.name name]) : l.nested = true := by
  rw [nested_iff, h]
  exact ⟨by simp, Or.inl (List.prefix_append _ _)⟩

end Layout

/-- A module that is accepted can be deployed with private files next to the public ones if, less the slash at its end, its
deploy path ends in a name, and their directory is a sibling then. Otherwise the private directory would be inside the public one,
and the layout is rejected for that. -/
theorem resolve_beside {text : String} {mod : Module} (h : Module.ofText text = .ok mod) (out : Path) :
    ∃ s, mod.deployTo = s ++ "/" ∧
      ((∃ name, (⟨s⟩ : Path).EndsIn name) → ∃ l, Layout.resolve mod out none = .ok l ∧ l.Siblings) ∧
      ((¬∃ name, (⟨s⟩ : Path).EndsIn name) →
        Layout.resolve mod out none =
          .error (.nestedOutputs (out.join (dropSlashes mod.deployTo)) (out.join (besidePath mod.deployTo)))) := by
  obtain ⟨hd, s, hs⟩ := Module.deployTo_of_ofText h
  have hresolve : Layout.resolve mod out none = _ := Layout.resolve_of_isDeployPath hd
  rw [hs] at hd hresolve
  have hdown : ".." ∉ (⟨s⟩ : Path).names := by
    have hdown := (Path.isPlain_spec hd).2
    rwa [dropSlashes_append_slash, names_dropSlashes] at hdown
  obtain ⟨hpublic, hprivate⟩ := Layout.components_candidate_none hd out
  refine ⟨s, hs, ?_⟩
  rw [hs, hresolve]
  rcases names_besidePath hdown with ⟨parent, name, hends, hnames, hbeside⟩ | ⟨hnone, name, hbeside⟩
  · have hsiblings : (Layout.candidate (s ++ "/") out none).Siblings := by
      refine ⟨out.components ++ parent.map .name, name, ?_, ?_⟩
      · rw [hpublic, hnames, List.map_append, List.append_assoc]
        rfl
      · rw [hprivate, hbeside, List.map_append, List.append_assoc]
        rfl
    rw [Layout.nested_of_siblings hsiblings, if_neg Bool.false_ne_true]
    exact ⟨fun _ => ⟨_, rfl, hsiblings⟩, fun hnone => absurd ⟨name, hends⟩ hnone⟩
  · have hbelow : (Layout.candidate (s ++ "/") out none).privateDir.components =
        (Layout.candidate (s ++ "/") out none).publicDir.components ++ [.name name] := by
      rw [hprivate, hpublic, hbeside, List.map_append, List.append_assoc]
      rfl
    rw [Layout.nested_of_components hbelow, if_pos rfl, Layout.publicDir_candidate, Layout.privateDir_candidate_none]
    exact ⟨fun hends => absurd hends hnone, fun _ => rfl⟩

/-- The text of a module with a deploy path. -/
def deployedText (deployTo : String) : String :=
  "[module]\nname = \"shelf\"\ndeploy_to = \"" ++ deployTo ++ "\"\n"

/-- Slashes between the segments of a deploy path do no harm. -/
theorem shelf_resolve_beside :
    ∃ mod, Module.ofText (deployedText "apps//shelf") = .ok mod ∧
      ∃ l, Layout.resolve mod ⟨"out"⟩ none = .ok l ∧ l.Siblings := by
  have hmod : Module.ofText (deployedText "apps//shelf") = .ok ((Module.plain "shelf" .empty).deployedTo "apps//shelf") := by
    decide +kernel
  have hdeploy : ((Module.plain "shelf" .empty).deployedTo "apps//shelf").deployTo = "apps//shelf" ++ "/" := by
    decide +kernel
  have hends : (⟨"apps//shelf"⟩ : Path).EndsIn "shelf" := by decide +kernel
  obtain ⟨s, hs, hsiblings, -⟩ := resolve_beside hmod ⟨"out"⟩
  rw [hdeploy, String.append_left_inj] at hs
  exact ⟨_, hmod, hsiblings ⟨"shelf", hs ▸ hends⟩⟩

/-- A module with a second slash at the end of its deploy path is accepted, but it has no layout for private files next to the
public ones. -/
theorem doubled_slash_nested :
    ∃ mod, Module.ofText (deployedText "shelf//") = .ok mod ∧
      Layout.resolve mod ⟨"out"⟩ none = .error (.nestedOutputs ⟨"out/shelf"⟩ ⟨"out/shelf/-aux"⟩) :=
  ⟨(Module.plain "shelf" .empty).deployedTo "shelf//", by decide +kernel, by decide +kernel⟩

end DeferredBinding
