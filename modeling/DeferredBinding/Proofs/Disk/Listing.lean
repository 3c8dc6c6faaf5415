import DeferredBinding.Proofs.Disk.Node
import DeferredBinding.Proofs.Path
import DeferredBinding.Text.Basic

/-!
# The files of a tree

In a tree as a system keeps it (`Node.Proper`) the files below a node are those that are found at its locations (`mem_files_iff`),
each listed once and in the order of the locations, name by name (`files_increasing`). The names of a location with slashes
between them are a plain path, which leads along the location (`isPlain_join`, `names_join_of_isName`).
-/

namespace DeferredBinding

/-! ## Names -/

namespace Path

/-- A text that a directory can list an entry under. -/
def IsName (s : String) : Prop :=
  isIdle s = false ∧ s ≠ ".." ∧ '/' ∉ s.toList

instance (s : String) : Decidable (IsName s) :=
  inferInstanceAs (Decidable (_ ∧ _ ∧ _))

theorem IsName.ne_empty {s : String} (h : IsName s) : s ≠ "" := by
  rintro rfl
  nomatch h.1

section

variable {l : List String} (hne : l ≠ []) (h : ∀ s ∈ l, IsName s)

include hne h

/-- Names with slashes between them are found again. -/
theorem pieces_join : (⟨Text.join "/" l⟩ : Path).pieces = l :=
  pieces_glue hne fun s hs => (h s hs).2.2

/-- Names with slashes between them lead along the names. -/
theorem names_join_of_isName : (⟨Text.join "/" l⟩ : Path).names = l := by
  rw [names, pieces_join hne h]
  refine List.filter_eq_self.2 fun s hs => ?_
  rw [(h s hs).1]
  rfl

/-- Names with slashes between them are a plain path. -/
theorem isPlain_join : (⟨Text.join "/" l⟩ : Path).isPlain = true := by
  obtain ⟨first, rest, rfl⟩ := List.exists_cons_of_ne_nil hne
  have hfirst := h first List.mem_cons_self
  have hpieces := pieces_join hne h
  refine isPlain_of_names ?_ ?_ ?_ ?_
  · intro hempty
    have hnone : (⟨""⟩ : Path).pieces = [""] := rfl
    rw [show Text.join "/" (first :: rest) = "" from hempty, hnone] at hpieces
    exact hfirst.ne_empty (List.cons.inj hpieces).1.symm
  · rw [← Bool.not_eq_true, isAbsolute_iff, hpieces]
    rintro ⟨s, more, heq⟩
    exact hfirst.ne_empty (List.cons.inj heq).1
  · rw [hpieces, List.head?_cons]
    rintro hdot
    obtain rfl := Option.some.inj hdot
    nomatch hfirst.1
  · rw [names_join_of_isName hne h]
    exact fun hm => (h _ hm).2.1 rfl

end

end Path

namespace Node

/-! ## Files and where they are found -/

/-- A tree as a system keeps it: every directory lists its entries in the order of their names, which can be parts of a path. -/
inductive Proper : Node → Prop where
  | file (bytes : ByteArray) : Proper (.file bytes)
  | directory {es : List (String × Node)} : Increasing es → (∀ e ∈ es, Path.IsName e.1) → (∀ e ∈ es, Proper e.2) →
      Proper (.directory es)

/-- The names of a directory are different. -/
theorem nodup_of_increasing {es : List (String × Node)} (h : Increasing es) : (es.map (·.1)).Nodup := by
  refine List.pairwise_map.2 (h.imp fun {a b} hab hne => ?_)
  rw [hne] at hab
  exact String.lt_irrefl b.1 hab

/-- The files below the entries of a directory are those of each entry, with its name in front. -/
theorem mem_filesOf_iff {es : List (String × Node)} {f : Location × ByteArray} :
    f ∈ filesOf es ↔ ∃ e ∈ es, ∃ l, (l, f.2) ∈ e.2.files ∧ f.1 = e.1 :: l := by
  induction es with
  | nil => simp [filesOf]
  | cons e es ih =>
    obtain ⟨name, node⟩ := e
    rw [filesOf, List.mem_append, ih, List.exists_mem_cons_iff]
    refine or_congr_left ?_
    obtain ⟨l, bytes⟩ := f
    simp only [List.mem_map, Prod.exists, Prod.mk.injEq]
    constructor
    · rintro ⟨l', _, hmem, rfl, rfl⟩
      exact ⟨l', hmem, rfl⟩
    · rintro ⟨l', hmem, rfl⟩
      exact ⟨l', bytes, hmem, rfl, rfl⟩

/-- The files below a node are those that are found at its locations. -/
theorem mem_files_iff {node : Node} (h : node.Proper) {l : Location} {bytes : ByteArray} :
    (l, bytes) ∈ node.files ↔ node.at? l = some (.file bytes) := by
  induction h generalizing l with
  | file old =>
    cases l with
    | nil => simp [files, at?, eq_comm]
    | cons name l => simp [files, at?, child?, entries]
  | directory hincreasing _ _ ih =>
    rw [files, mem_filesOf_iff]
    constructor
    · rintro ⟨⟨name, inner⟩, hmem, rest, hinner, hl⟩
      obtain rfl : l = name :: rest := hl
      have hchild := lookup_eq_some_of_mem (nodup_of_increasing hincreasing) hmem
      rw [at?, child?, entries, hchild]
      exact (ih _ hmem).1 hinner
    · intro hat
      cases l with
      | nil => cases hat
      | cons name rest =>
        obtain ⟨inner, hchild, hat⟩ := Option.bind_eq_some_iff.1 hat
        have hmem := mem_of_lookup_eq_some hchild
        exact ⟨(name, inner), hmem, rest, (ih _ hmem).2 hat, rfl⟩

/-- What leads to a file are names. -/
theorem isName_of_mem_files {node : Node} (h : node.Proper) {f : Location × ByteArray} (hf : f ∈ node.files) :
    ∀ s ∈ f.1, Path.IsName s := by
  induction h generalizing f with
  | file old =>
    obtain rfl := List.mem_singleton.1 hf
    exact fun s hs => nomatch hs
  | directory _ hnames _ ih =>
    obtain ⟨e, he, rest, hinner, hl⟩ := mem_filesOf_iff.1 hf
    rw [hl]
    exact List.forall_mem_cons.2 ⟨hnames e he, ih e he hinner⟩

/-- The files below the entries of a directory are in the order of their locations, if those below each entry are. -/
theorem filesOf_increasing {es : List (String × Node)} (hes : Increasing es)
    (h : ∀ e ∈ es, e.2.files.Pairwise fun f g => f.1 < g.1) : (filesOf es).Pairwise fun f g => f.1 < g.1 := by
  induction es with
  | nil => exact List.Pairwise.nil
  | cons e es ih =>
    obtain ⟨hfirst, hrest⟩ := List.pairwise_cons.1 hes
    obtain ⟨hnode, hnodes⟩ := List.forall_mem_cons.1 h
    rw [filesOf, List.pairwise_append]
    refine ⟨?_, ih hrest hnodes, ?_⟩
    · -- below one entry, the order is that of the rest of the location
      refine List.pairwise_map.2 (hnode.imp fun {f g} hfg => ?_)
      exact List.cons_lt_cons_iff.2 (Or.inr ⟨rfl, hfg⟩)
    · -- the files of an earlier entry come first, whatever is below it
      intro f hf g hg
      obtain ⟨f', -, rfl⟩ := List.mem_map.1 hf
      obtain ⟨e', he', l, -, hl⟩ := mem_filesOf_iff.1 hg
      rw [hl]
      exact List.cons_lt_cons_iff.2 (Or.inl (hfirst e' he'))

/-- Files are listed in the order of their locations, name by name. -/
theorem files_increasing {node : Node} (h : node.Proper) : node.files.Pairwise fun f g => f.1 < g.1 := by
  induction h with
  | file old => exact List.pairwise_singleton _ _
  | directory hincreasing _ _ ih => exact filesOf_increasing hincreasing ih

end Node

end DeferredBinding
