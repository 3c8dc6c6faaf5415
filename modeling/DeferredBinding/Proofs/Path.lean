import DeferredBinding.Path
import DeferredBinding.Proofs.Lists

/-!
# The names of a path

A path is known by its pieces (`glue_pieces`, `pieces_glue`), and leads past the names among them: `names` are the pieces that
are neither empty nor a dot. A path inside another one has the names of both (`names_join`), and the path above another one has
its names but the last (`parent?_eq_some`).
-/

namespace DeferredBinding.Path

/-! ## Pieces -/

theorem cut_ne_nil (cs : List Char) : cut cs ≠ [] := by
  fun_cases cut cs with
  | case1 => simp
  | case2 => simp
  | case3 => simp
  | case4 => simp

/-- A slash divides the pieces. -/
theorem cut_append_slash (a b : List Char) : cut (a ++ '/' :: b) = cut a ++ cut b := by
  induction a with
  | nil => rfl
  | cons c a ih =>
    by_cases hc : c = '/'
    · subst hc
      simp [cut, ih]
    · rw [List.cons_append, cut, cut, ih]
      · cases hcut : cut a with
        | nil => exact absurd hcut (cut_ne_nil a)
        | cons piece pieces => simp
      · exact fun h => hc h
      · exact fun h => hc h

/-- A text without slashes is one piece. -/
theorem cut_of_not_mem {a : List Char} (h : '/' ∉ a) : cut a = [a] := by
  induction a with
  | nil => rfl
  | cons c a ih =>
    rw [List.mem_cons, not_or] at h
    rw [cut, ih h.2]
    exact fun hc => h.1 hc.symm

/-- No piece has a slash. -/
theorem not_mem_of_mem_cut {cs piece : List Char} (h : piece ∈ cut cs) : '/' ∉ piece := by
  induction cs generalizing piece with
  | nil => simp_all [cut]
  | cons c cs ih =>
    by_cases hc : c = '/'
    · subst hc
      rcases List.mem_cons.1 h with rfl | h
      · simp
      · exact ih h
    · rw [cut] at h
      · cases hcut : cut cs with
        | nil => exact absurd hcut (cut_ne_nil cs)
        | cons first rest =>
          rw [hcut] at h ih
          rcases List.mem_cons.1 h with rfl | h
          · rw [List.mem_cons, not_or]
            exact ⟨fun he => hc he.symm, ih (List.mem_cons_self ..)⟩
          · exact ih (List.mem_cons_of_mem _ h)
      · exact fun h => hc h

/-- A text has no slash, or a last one, which divides the last piece from the others. -/
theorem cut_last (cs : List Char) : '/' ∉ cs ∨ ∃ u v, cs = u ++ '/' :: v ∧ '/' ∉ v := by
  by_cases h : '/' ∈ cs
  · obtain ⟨v, u, hrev, hv⟩ := List.eq_append_cons_of_mem (List.mem_reverse.2 h)
    refine Or.inr ⟨u.reverse, v.reverse, ?_, by simpa using hv⟩
    rw [← List.reverse_inj, hrev]
    simp
  · exact Or.inl h

theorem pieces_ne_nil (p : Path) : p.pieces ≠ [] := by
  simp [pieces, cut_ne_nil]

/-- The pieces of two texts with a slash between them. -/
theorem pieces_append_slash (a b : String) : (⟨a ++ "/" ++ b⟩ : Path).pieces = (⟨a⟩ : Path).pieces ++ (⟨b⟩ : Path).pieces := by
  have h : (a ++ "/" ++ b).toList = a.toList ++ '/' :: b.toList := by simp
  rw [pieces, h, cut_append_slash, List.map_append]
  rfl

/-- A text without slashes is its only piece. -/
theorem pieces_of_not_mem {s : String} (h : '/' ∉ s.toList) : (⟨s⟩ : Path).pieces = [s] := by
  rw [pieces, cut_of_not_mem h]
  simp

/-- The last piece is empty only behind a slash, or if there is nothing else. -/
theorem getLast?_of_last_piece_empty {p : Path} (h : p.pieces.getLast? = some "") :
    p.text = "" ∨ p.text.toList.getLast? = some '/' := by
  rw [pieces, List.getLast?_map, Option.map_eq_some_iff] at h
  obtain ⟨last, hlast, hempty⟩ := h
  obtain rfl : last = [] := by simpa using hempty
  rcases cut_last p.text.toList with hno | ⟨u, v, htext, hv⟩
  · rw [cut_of_not_mem hno, List.getLast?_singleton] at hlast
    exact Or.inl (by simpa using Option.some.inj hlast)
  · rw [htext, cut_append_slash, cut_of_not_mem hv, List.getLast?_concat] at hlast
    obtain rfl := Option.some.inj hlast
    rw [htext]
    exact Or.inr List.getLast?_concat

theorem not_mem_of_mem_pieces {p : Path} {s : String} (h : s ∈ p.pieces) : '/' ∉ s.toList := by
  obtain ⟨piece, hp, rfl⟩ := List.mem_map.1 h
  rw [String.toList_ofList]
  exact not_mem_of_mem_cut hp

/-- Pieces that are glued together are found again. -/
theorem pieces_glue {l : List String} (hne : l ≠ []) (h : ∀ s ∈ l, '/' ∉ s.toList) : (⟨glue l⟩ : Path).pieces = l := by
  induction l with
  | nil => exact absurd rfl hne
  | cons s l ih =>
    have hs := pieces_of_not_mem (h s (List.mem_cons_self ..))
    cases l with
    | nil => exact hs
    | cons t l =>
      rw [glue, String.intercalate_cons_cons, pieces_append_slash, hs, ih (by simp) fun u hu => h u (List.mem_cons_of_mem _ hu)]
      rfl

/-- The text of a path is glued together of its pieces. -/
theorem glue_pieces (p : Path) : glue p.pieces = p.text := by
  have hcut : ∀ cs : List Char, (glue ((cut cs).map String.ofList)).toList = cs := by
    intro cs
    induction cs with
    | nil => simp [cut]
    | cons c cs ih =>
      cases hcut : cut cs with
      | nil => exact absurd hcut (cut_ne_nil cs)
      | cons first rest =>
        rw [hcut] at ih
        by_cases hc : c = '/'
        · subst hc
          rw [cut, hcut, List.map_cons, List.map_cons, glue, String.intercalate_cons_cons, String.toList_append,
            String.toList_append]
          rw [List.map_cons] at ih
          simp [ih]
        · rw [cut, hcut]
          · cases rest with
            | nil => simpa [glue] using ih
            | cons second rest => simpa [glue] using ih
          · exact fun h => hc h
  rw [pieces, ← String.toList_inj]
  exact hcut p.text.toList

/-- A path is absolute when it has pieces behind an empty first one. -/
theorem isAbsolute_iff (p : Path) : p.isAbsolute = true ↔ ∃ s rest, p.pieces = "" :: s :: rest := by
  rw [isAbsolute, beq_iff_eq]
  constructor
  · intro h
    cases hcs : p.text.toList with
    | nil => simp [hcs] at h
    | cons c cs =>
      obtain rfl : c = '/' := by simpa [hcs] using h
      rw [pieces, hcs, cut]
      cases hcut : cut cs with
      | nil => exact absurd hcut (cut_ne_nil cs)
      | cons first rest => exact ⟨_, _, rfl⟩
  · rintro ⟨s, rest, h⟩
    rw [← p.glue_pieces, h, glue, String.intercalate_cons_cons]
    simp

/-! ## Names -/

/-- The pieces of a path that lead somewhere. -/
def names (p : Path) : List String :=
  p.pieces.filter fun s => !isIdle s

/-- The last piece of a path is a name. -/
def EndsIn (p : Path) (name : String) : Prop :=
  p.pieces.getLast? = some name ∧ isIdle name = false ∧ name ≠ ".."

instance (p : Path) (name : String) : Decidable (p.EndsIn name) :=
  inferInstanceAs (Decidable (_ ∧ _ ∧ _))

/-- A path that ends in a name has it as its last name. -/
theorem EndsIn.names_eq {p : Path} {name : String} (h : p.EndsIn name) : p.names = p.names.dropLast ++ [name] := by
  obtain ⟨before, hbefore⟩ := List.getLast?_eq_some_iff.1 h.1
  have hname : p.names = before.filter (fun s => !isIdle s) ++ [name] := by
    rw [names, hbefore, List.filter_append, List.filter_cons_of_pos (by simp [h.2.1]), List.filter_nil]
  rw [hname, List.dropLast_concat]

/-- A path that ends in a name is not empty. -/
theorem EndsIn.text_ne {p : Path} {name : String} (h : p.EndsIn name) : p.text ≠ "" := by
  intro hempty
  obtain rfl : p = ⟨""⟩ := by rw [← hempty]
  obtain rfl : "" = name := Option.some.inj h.1
  exact absurd h.2.1 (by decide)

/-- A path that ends in a name does not end in a slash. -/
theorem EndsIn.getLast?_ne_slash {p : Path} {name : String} (h : p.EndsIn name) : p.text.toList.getLast? ≠ some '/' := by
  intro hslash
  obtain ⟨before, hbefore⟩ := List.getLast?_eq_some_iff.1 hslash
  have hlast : p.pieces.getLast? = some "" := by
    rw [pieces, hbefore, cut_append_slash]
    simp [cut]
  have hname : "" = name := Option.some.inj (hlast.symm.trans h.1)
  exact absurd h.2.1 (by simp [← hname, isIdle])

/-- The pieces of a path inside another one: those of the two, up to idle ones. -/
theorem exists_pieces_join (p : Path) {s : String} (hs : (⟨s⟩ : Path).isAbsolute = false) :
    ∃ before, (p.join s).pieces = before ++ (⟨s⟩ : Path).pieces ∧ before.filter (fun s => !isIdle s) = p.names ∧
      (p.text = "" ∧ before = [] ∨ before.head? = p.pieces.head?) := by
  rw [join, hs, if_neg Bool.false_ne_true]
  split
  · rename_i hp
    rcases Bool.or_eq_true_iff.1 hp with hp | hp
    · have hempty : p.text = "" := beq_iff_eq.1 hp
      refine ⟨[], ?_, ?_, Or.inl ⟨hempty, rfl⟩⟩
      · rw [hempty, String.empty_append]
        rfl
      · rw [names, pieces, hempty]
        rfl
    · -- the last piece of the outer path is empty
      obtain ⟨before, hbefore⟩ := List.getLast?_eq_some_iff.1 (beq_iff_eq.1 hp)
      have htext : p.text = String.ofList before ++ "/" := by
        rw [← String.toList_inj, hbefore]
        simp
      have hpieces : p.pieces = (⟨String.ofList before⟩ : Path).pieces ++ [""] := by
        have := pieces_append_slash (String.ofList before) ""
        rw [String.append_empty, ← htext] at this
        exact this
      refine ⟨(⟨String.ofList before⟩ : Path).pieces, ?_, ?_, Or.inr ?_⟩
      · rw [htext, pieces_append_slash]
      · rw [names, hpieces, List.filter_append]
        simp [isIdle]
      · rw [hpieces, List.head?_append_of_ne_nil _ (pieces_ne_nil _)]
  · exact ⟨p.pieces, pieces_append_slash p.text s, rfl, Or.inr rfl⟩

/-- A path inside another one has the names of both. -/
theorem names_join (p : Path) {s : String} (hs : (⟨s⟩ : Path).isAbsolute = false) :
    (p.join s).names = p.names ++ (⟨s⟩ : Path).names := by
  obtain ⟨before, hpieces, hnames, _⟩ := p.exists_pieces_join hs
  rw [names, hpieces, List.filter_append, hnames]
  rfl

/-- A path inside another one starts where that one starts. -/
theorem isAbsolute_join (p : Path) {s : String} (hs : (⟨s⟩ : Path).isAbsolute = false) :
    (p.join s).isAbsolute = p.isAbsolute := by
  rw [join, hs, if_neg Bool.false_ne_true]
  have hhead : p.text ≠ "" → ∀ t : String, (⟨p.text ++ t⟩ : Path).isAbsolute = p.isAbsolute := by
    intro hp t
    have hne : p.text.toList ≠ [] := fun h => hp (by rw [← String.toList_inj, h]; rfl)
    obtain ⟨c, cs, hcs⟩ := List.exists_cons_of_ne_nil hne
    simp [isAbsolute, hcs]
  by_cases hp : p.text = ""
  · rw [hp, beq_self_eq_true, Bool.true_or, if_pos rfl, String.empty_append, hs]
    simp [isAbsolute, hp]
  · split
    · exact hhead hp s
    · rw [String.append_assoc]
      exact hhead hp ("/" ++ s)

/-- A path inside another one ends as it does alone. -/
theorem endsIn_join_iff (p : Path) {s name : String} (hs : (⟨s⟩ : Path).isAbsolute = false) :
    (p.join s).EndsIn name ↔ (⟨s⟩ : Path).EndsIn name := by
  obtain ⟨before, hpieces, _, _⟩ := p.exists_pieces_join hs
  rw [EndsIn, EndsIn, hpieces, List.getLast?_append_of_ne_nil _ (pieces_ne_nil _)]

theorem EndsIn.join {s name : String} (h : (⟨s⟩ : Path).EndsIn name) (p : Path) (hs : (⟨s⟩ : Path).isAbsolute = false) :
    (p.join s).EndsIn name :=
  (p.endsIn_join_iff hs).2 h

/-- The text of a path inside another one ends in its own character. -/
theorem getLast?_text_join (p : Path) {s : String} (hs : (⟨s⟩ : Path).isAbsolute = false) (hne : s ≠ "") :
    (p.join s).text.toList.getLast? = s.toList.getLast? := by
  have hs' : s.toList ≠ [] := by simpa using hne
  rw [join, hs, if_neg Bool.false_ne_true]
  split
  · rw [String.toList_append, List.getLast?_append_of_ne_nil _ hs']
  · rw [String.toList_append, List.getLast?_append_of_ne_nil _ hs']

/-! ## The path above -/

/-- Idle pieces in front have no names. -/
theorem filter_dropIdle (l : List String) : (dropIdle l).filter (fun s => !isIdle s) = l.filter fun s => !isIdle s := by
  induction l with
  | nil => rfl
  | cons s l ih =>
    cases hs : isIdle s with
    | true => simpa [dropIdle, hs] using ih
    | false => simp [dropIdle, hs]

/-- Behind the idle pieces in front stands a name. -/
theorem isIdle_of_dropIdle_eq_cons {l before : List String} {s : String} (h : dropIdle l = s :: before) : isIdle s = false := by
  have hs := List.head?_dropWhile_not isIdle l
  rw [dropIdle] at h
  simpa [h] using hs

theorem mem_of_mem_dropIdle {l : List String} {s : String} (h : s ∈ dropIdle l) : s ∈ l :=
  (List.dropWhile_sublist isIdle).mem h

/-- The pieces in front of the last name, without the idle ones behind them. -/
theorem filter_of_dropIdle_eq_cons {rest before : List String} {s : String} (h : dropIdle rest.reverse = s :: before) :
    rest.filter (fun s => !isIdle s) = ((dropIdle before).reverse.filter fun s => !isIdle s) ++ [s] ∧
      ∀ t ∈ (dropIdle before).reverse, t ∈ rest := by
  have hrest := filter_dropIdle rest.reverse
  rw [List.filter_reverse, h, List.filter_cons_of_pos (by simp [isIdle_of_dropIdle_eq_cons h])] at hrest
  refine ⟨?_, fun t ht => ?_⟩
  · rw [List.filter_reverse, filter_dropIdle, ← List.reverse_cons, ← List.reverse_eq_iff, ← hrest]
  · have hmem : t ∈ dropIdle rest.reverse := by
      rw [h]
      exact List.mem_cons_of_mem _ (mem_of_mem_dropIdle (List.mem_reverse.1 ht))
    exact List.mem_reverse.1 (mem_of_mem_dropIdle hmem)

/-- A path with several pieces is absolute if the first is empty. -/
theorem isAbsolute_iff_of_cons {p : Path} {first : String} {rest : List String} (hp : p.pieces = first :: rest)
    (hne : rest ≠ []) : p.isAbsolute = true ↔ first = "" := by
  rw [isAbsolute_iff, hp]
  constructor
  · rintro ⟨s, r, he⟩
    exact (List.cons.inj he).1
  · rintro rfl
    obtain ⟨s, r, rfl⟩ := List.exists_cons_of_ne_nil hne
    exact ⟨s, r, rfl⟩

/-- A path with one piece is not absolute. -/
theorem isAbsolute_of_singleton {p : Path} {first : String} (hp : p.pieces = [first]) : p.isAbsolute = false := by
  rw [Bool.eq_false_iff, ne_eq, isAbsolute_iff, hp]
  rintro ⟨s, r, he⟩
  nomatch he

/-- The path above another one starts where that one starts, and has its names but the last. -/
theorem parent?_eq_some {p q : Path} (h : p.parent? = some q) : q.isAbsolute = p.isAbsolute ∧ q.names = p.names.dropLast := by
  rw [parent?] at h
  cases hp : p.pieces with
  | nil => exact absurd hp p.pieces_ne_nil
  | cons first rest =>
    have hslash : ∀ s ∈ first :: rest, '/' ∉ s.toList := fun s hs => not_mem_of_mem_pieces (hp ▸ hs)
    have hfirst : (⟨first⟩ : Path).pieces = [first] := pieces_of_not_mem (hslash first (List.mem_cons_self ..))
    rw [hp] at h
    dsimp only at h
    split at h
    · -- all pieces behind the first are idle
      rename_i hdrop
      have hrest := filter_dropIdle rest.reverse
      rw [hdrop, List.filter_reverse, List.filter_nil, eq_comm, List.reverse_eq_nil_iff] at hrest
      split at h
      · nomatch h
      · rename_i hcond
        rw [Bool.or_eq_true, not_or, Bool.not_eq_true] at hcond
        obtain rfl := Option.some.inj h
        refine ⟨hcond.1.symm, ?_⟩
        rw [names, names, hp, List.filter_cons, hrest]
        split
        · rfl
        · rfl
    · rename_i last before hdrop
      obtain ⟨hback, hkept⟩ := filter_of_dropIdle_eq_cons hdrop
      have hne : rest ≠ [] := by
        rintro rfl
        nomatch hdrop
      have habs := isAbsolute_iff_of_cons hp hne
      have hnames : p.names.dropLast = (first :: (dropIdle before).reverse).filter fun s => !isIdle s := by
        rw [names, hp, ← List.singleton_append, List.filter_append, hback, ← List.append_assoc, List.dropLast_concat,
          ← List.filter_append, List.singleton_append]
      rw [hnames]
      split at h
      · -- nothing but the first piece is kept
        rename_i hnil
        obtain rfl := Option.some.inj h
        rw [hnil]
        split
        · rename_i ha
          rw [ha, habs.1 ha]
          exact ⟨rfl, rfl⟩
        · rename_i ha
          rw [Bool.not_eq_true] at ha
          rw [ha, isAbsolute_of_singleton hfirst, names, hfirst]
          exact ⟨rfl, rfl⟩
      · rename_i kept hcons
        obtain rfl := Option.some.inj h
        have hglue : (⟨glue (first :: (dropIdle before).reverse)⟩ : Path).pieces = first :: (dropIdle before).reverse := by
          refine pieces_glue (by simp) fun s hs => hslash s ?_
          exact (List.mem_cons.1 hs).elim (fun hs => hs ▸ List.mem_cons_self ..) fun hs => List.mem_cons_of_mem _ (hkept s hs)
        refine ⟨?_, by rw [names, hglue]⟩
        rw [Bool.eq_iff_iff, habs, isAbsolute_iff_of_cons hglue hcons]

/-- There is a path above one with names. -/
theorem exists_parent? {p : Path} (h : p.names ≠ []) : ∃ q, p.parent? = some q := by
  rw [parent?]
  cases hp : p.pieces with
  | nil => exact absurd hp p.pieces_ne_nil
  | cons first rest =>
    dsimp only
    split
    · -- no name is behind the first piece, so it is one
      rename_i hdrop
      have hrest := filter_dropIdle rest.reverse
      rw [hdrop, List.filter_reverse, List.filter_nil, eq_comm, List.reverse_eq_nil_iff] at hrest
      have hidle : isIdle first = false := by
        by_contra hidle
        rw [Bool.not_eq_false] at hidle
        exact h (by rw [names, hp, List.filter_cons, hidle, hrest]; rfl)
      rw [isIdle, Bool.or_eq_false_iff] at hidle
      have hrel : p.isAbsolute = false := by
        rw [← Bool.not_eq_true, isAbsolute_iff, hp]
        rintro ⟨s, l, he⟩
        rw [(List.cons.inj he).1] at hidle
        cases hidle.1
      have hsome : (Component.ofFirst? first).isNone = false := by
        simp only [Component.ofFirst?, Component.ofPiece?, isIdle, hidle.1, hidle.2, Bool.or_false, Bool.false_eq_true, if_false]
        split
        · rfl
        · rfl
      rw [hrel, hsome]
      exact ⟨_, rfl⟩
    · split
      · exact ⟨_, rfl⟩
      · exact ⟨_, rfl⟩

theorem of_mem_ancestorsWithin {fuel : Nat} {p q : Path} (h : q ∈ ancestorsWithin fuel p) :
    q.isAbsolute = p.isAbsolute ∧ q.names <+: p.names := by
  induction fuel generalizing p with
  | zero =>
    rw [List.mem_singleton.1 h]
    exact ⟨rfl, List.prefix_rfl⟩
  | succ fuel ih =>
    rw [ancestorsWithin] at h
    split at h
    · rw [List.mem_singleton.1 h]
      exact ⟨rfl, List.prefix_rfl⟩
    · rename_i parent hparent
      rcases List.mem_cons.1 h with rfl | h
      · exact ⟨rfl, List.prefix_rfl⟩
      · obtain ⟨habs, hnames⟩ := parent?_eq_some hparent
        obtain ⟨habs', hnames'⟩ := ih h
        exact ⟨habs'.trans habs, hnames'.trans (hnames ▸ List.dropLast_prefix _)⟩

/-- A path and the paths above it start where it starts and lead along its names. -/
theorem of_mem_ancestors {p q : Path} (h : q ∈ p.ancestors) : q.isAbsolute = p.isAbsolute ∧ q.names <+: p.names :=
  of_mem_ancestorsWithin h

/-- The paths above a path lead along its names up to the last. -/
theorem of_mem_outer {p q : Path} {outer : List Path} (houter : p.ancestors = p :: outer) (h : q ∈ outer) :
    q.isAbsolute = p.isAbsolute ∧ q.names <+: p.names.dropLast := by
  rw [ancestors] at houter
  cases hlength : p.pieces.length with
  | zero =>
    rw [hlength] at houter
    rw [← (List.cons.inj houter).2] at h
    nomatch h
  | succ fuel =>
    rw [hlength, ancestorsWithin] at houter
    split at houter
    · rw [← (List.cons.inj houter).2] at h
      nomatch h
    · rename_i parent hparent
      obtain ⟨habs, hnames⟩ := parent?_eq_some hparent
      rw [← (List.cons.inj houter).2] at h
      obtain ⟨habs', hnames'⟩ := of_mem_ancestorsWithin h
      exact ⟨habs'.trans habs, hnames ▸ hnames'⟩

theorem exists_ancestors_eq_cons (p : Path) : ∃ outer, p.ancestors = p :: outer := by
  rw [ancestors]
  cases p.pieces.length with
  | zero => exact ⟨[], rfl⟩
  | succ fuel =>
    rw [ancestorsWithin]
    split
    · exact ⟨[], rfl⟩
    · exact ⟨_, rfl⟩

/-! ## Components -/

/-- The piece of a path that a component stands for, where that is not idle. -/
def Component.piece? : Component → Option String
  | .name s => some s
  | .above => some ".."
  | .here => none
  | .root => none

/-- The component that a name stands for. -/
def Component.ofName (s : String) : Component :=
  if s = ".." then .above else .name s

theorem Component.piece?_ofName (s : String) : (Component.ofName s).piece? = some s := by
  unfold ofName
  split
  · rename_i h
    rw [h]
    rfl
  · rfl

/-- Names that do not lead up stand for themselves. -/
theorem map_ofName_of_down {l : List String} (h : ".." ∉ l) : l.map Component.ofName = l.map .name := by
  refine List.map_congr_left fun s hs => if_neg ?_
  rintro rfl
  exact h hs

/-- The component in front of the names: the root, or a dot. -/
def front (p : Path) : Option Component :=
  if p.isAbsolute then some .root else if p.pieces.head? = some "." then some .here else none

/-- Pieces behind the first stand for the names among them. -/
theorem filterMap_ofPiece? (l : List String) :
    l.filterMap Component.ofPiece? = (l.filter fun s => !isIdle s).map Component.ofName := by
  induction l with
  | nil => rfl
  | cons s l ih =>
    rw [List.filterMap_cons, List.filter_cons, ih]
    cases hidle : isIdle s with
    | true => simp [Component.ofPiece?, hidle]
    | false =>
      by_cases hdots : s = ".."
      · simp [Component.ofPiece?, Component.ofName, hdots, show isIdle ".." = false from rfl]
      · simp [Component.ofPiece?, Component.ofName, hidle, hdots]

/-- The components of a path are its front and its names. -/
theorem components_eq (p : Path) : p.components = p.front.toList ++ p.names.map Component.ofName := by
  unfold components front names
  cases hp : p.pieces with
  | nil => exact absurd hp p.pieces_ne_nil
  | cons first rest =>
    dsimp only
    rw [filterMap_ofPiece?]
    cases habs : p.isAbsolute with
    | true =>
      obtain ⟨s, l, hs⟩ := p.isAbsolute_iff.1 habs
      obtain rfl : first = "" := (List.cons.inj (hp.symm.trans hs)).1
      rfl
    | false =>
      by_cases hdot : first = "."
      · subst hdot
        rfl
      · have hfirst : (Component.ofPiece? first).toList = ([first].filter fun s => !isIdle s).map Component.ofName := by
          rw [← filterMap_ofPiece?, List.filterMap_cons]
          cases Component.ofPiece? first with
          | none => rfl
          | some c => rfl
        simp only [Component.ofFirst?, beq_iff_eq, if_neg hdot, hfirst, List.head?_cons, Option.some.injEq,
          Bool.false_eq_true, if_false, Option.toList_none, List.nil_append]
        rw [← List.map_append, ← List.filter_append]
        rfl

/-- The names of a path are what its components stand for. -/
theorem filterMap_components (p : Path) : p.components.filterMap Component.piece? = p.names := by
  have hfront : p.front.toList.filterMap Component.piece? = [] := by
    unfold front
    split
    · rfl
    · split
      · rfl
      · rfl
  have hnames : Component.piece? ∘ Component.ofName = some := funext Component.piece?_ofName
  rw [components_eq, List.filterMap_append, hfront, List.filterMap_map, hnames, List.filterMap_some]
  rfl

/-- The last component of a path whose last name does not lead up. -/
theorem fileName?_of_names {p : Path} {before : List String} {name : String} (h : p.names = before ++ [name]) (hne : name ≠ "..") :
    p.fileName? = some name := by
  have hlast : p.components.getLast? = some (.name name) := by
    rw [components_eq, h, List.map_append, List.map_singleton, ← List.append_assoc, List.getLast?_concat, Component.ofName,
      if_neg hne]
  rw [fileName?, hlast]

/-- A path leads up if two dots are among its components. -/
theorem above_mem_components_iff (p : Path) : Component.above ∈ p.components ↔ ".." ∈ p.names := by
  rw [components_eq, List.mem_append, List.mem_map]
  constructor
  · rintro (hfront | ⟨s, hs, habove⟩)
    · unfold front at hfront
      split at hfront
      · simp at hfront
      · split at hfront
        · simp at hfront
        · simp at hfront
    · unfold Component.ofName at habove
      split at habove
      · rename_i h
        exact h ▸ hs
      · nomatch habove
  · intro hs
    exact Or.inr ⟨"..", hs, rfl⟩

/-- The root and a dot are found in front only. -/
theorem mem_components_iff_front (p : Path) {c : Component} (hc : c = .root ∨ c = .here) :
    c ∈ p.components ↔ p.front = some c := by
  rw [components_eq, List.mem_append, Option.mem_toList, or_iff_left]
  intro hm
  obtain ⟨s, -, hs⟩ := List.mem_map.1 hm
  have hpiece := Component.piece?_ofName s
  rcases hc with rfl | rfl
  · rw [hs] at hpiece
    nomatch hpiece
  · rw [hs] at hpiece
    nomatch hpiece

/-- A path is absolute if it has the root among its components. -/
theorem root_mem_components_iff (p : Path) : Component.root ∈ p.components ↔ p.isAbsolute = true := by
  rw [mem_components_iff_front p (Or.inl rfl), front]
  split
  · rename_i habs
    simp [habs]
  · rename_i habs
    simp [habs]

/-- A plain path has no components but names. -/
theorem not_mem_components_of_isPlain {p : Path} (h : p.isPlain = true) {c : Component} (hc : ∀ s, c ≠ .name s) :
    c ∉ p.components := by
  rw [isPlain, Bool.and_eq_true, names?] at h
  intro hm
  have hsome := isSome_of_mapM h.2 hm
  cases c with
  | name s => exact hc s rfl
  | root => nomatch hsome
  | here => nomatch hsome
  | above => nomatch hsome

/-- The names of a path that has nothing but names. -/
theorem names?_of_components {p : Path} {l : List String} (h : p.components = l.map .name) : p.names? = some l := by
  rw [names?, h]
  clear h
  induction l with
  | nil => rfl
  | cons s l ih =>
    rw [List.map_cons, List.mapM_cons, ih]
    rfl

/-- A relative path with text that has no dot in front and does not lead up is plain. -/
theorem isPlain_of_names {p : Path} (htext : p.text ≠ "") (hrel : p.isAbsolute = false) (hhead : p.pieces.head? ≠ some ".")
    (hdown : ".." ∉ p.names) : p.isPlain = true := by
  have hcomponents : p.components = p.names.map .name := by
    rw [components_eq, front, hrel, if_neg Bool.false_ne_true, if_neg hhead]
    exact map_ofName_of_down hdown
  rw [isPlain, names?_of_components hcomponents]
  simpa using htext

/-- A plain path is relative and does not lead up. -/
theorem isPlain_spec {p : Path} (h : p.isPlain = true) : p.isAbsolute = false ∧ ".." ∉ p.names := by
  rw [← Bool.not_eq_true, ← root_mem_components_iff, ← above_mem_components_iff]
  exact ⟨not_mem_components_of_isPlain h nofun, not_mem_components_of_isPlain h nofun⟩

/-- The components of a path that has no others than names. -/
theorem components_eq_map_name {p : Path} (h : ∀ c ∈ p.components, ∃ s, c = .name s) : p.components = p.names.map .name := by
  have hnames : ∀ l : List Component, (∀ c ∈ l, ∃ s, c = .name s) → l = (l.filterMap Component.piece?).map .name := by
    intro l hl
    induction l with
    | nil => rfl
    | cons c l ih =>
      obtain ⟨s, rfl⟩ := hl c List.mem_cons_self
      have hs : Component.piece? (.name s) = some s := rfl
      rw [List.filterMap_cons_some hs, List.map_cons, ← ih fun d hd => hl d (List.mem_cons_of_mem _ hd)]
  rw [← filterMap_components]
  exact hnames p.components h

/-- A path is plain if it has text and every component is a name. -/
theorem isPlain_iff (p : Path) : p.isPlain = true ↔ p.text ≠ "" ∧ ∀ c ∈ p.components, ∃ s, c = .name s := by
  constructor
  · intro h
    refine ⟨?_, fun c hc => ?_⟩
    · rw [isPlain, Bool.and_eq_true] at h
      simpa using h.1
    · by_contra hname
      exact not_mem_components_of_isPlain h (fun s hs => hname ⟨s, hs⟩) hc
  · rintro ⟨htext, hnames⟩
    rw [isPlain, names?_of_components (components_eq_map_name hnames)]
    simpa using htext

/-- A plain path inside another one leaves the front of that one. -/
theorem front_join (p : Path) {s : String} (hs : (⟨s⟩ : Path).isPlain = true) : (p.join s).front = p.front := by
  obtain ⟨hrel, -⟩ := isPlain_spec hs
  have hdot : (⟨s⟩ : Path).pieces.head? ≠ some "." := by
    intro hhead
    refine not_mem_components_of_isPlain hs (c := .here) nofun ?_
    rw [mem_components_iff_front _ (Or.inr rfl), front, hrel, hhead]
    rfl
  obtain ⟨before, hpieces, -, hbefore⟩ := p.exists_pieces_join hrel
  rw [front, front, isAbsolute_join p hrel, hpieces]
  rcases hbefore with ⟨hempty, rfl⟩ | hhead
  · obtain rfl : p = ⟨""⟩ := by rw [← hempty]
    rw [List.nil_append, if_neg hdot]
    rfl
  · cases before with
    | nil => exact absurd (List.head?_eq_none_iff.1 hhead.symm) p.pieces_ne_nil
    | cons first before => rw [← hhead, List.cons_append, List.head?_cons, List.head?_cons]

/-- A plain path inside another one adds its names to the components of that one. -/
theorem components_join (p : Path) {s : String} (hs : (⟨s⟩ : Path).isPlain = true) :
    (p.join s).components = p.components ++ (⟨s⟩ : Path).names.map .name := by
  obtain ⟨hrel, hdown⟩ := isPlain_spec hs
  rw [components_eq, components_eq, front_join p hs, names_join p hrel, List.map_append, map_ofName_of_down hdown,
    List.append_assoc]

end DeferredBinding.Path
