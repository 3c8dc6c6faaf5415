import DeferredBinding.Disk.Node
import DeferredBinding.Proofs.Dict

/-!
# Changes of a file tree at a location

A change at a location is seen at and below it (`at?_set_concat`), and nowhere else (`at?_set_of_apart`): the directories above it
stay directories (`IsDirAt.set`). What is seen at a location is nothing, a directory or a file (`view`).
-/

namespace DeferredBinding.Node

/-! ## One directory -/

/-- Entries are put in place as those of a map are. -/
theorem insertEntry_eq (name : String) (node : Node) (es : List (String × Node)) :
    insertEntry name node es = Dict.insertEntry name node es := by
  induction es with
  | nil => rfl
  | cons e es ih => rw [insertEntry, Dict.insertEntry, ih]

/-- What a directory holds after a change of one of its entries. -/
theorem child?_setChild (name other : String) (new : Option Node) (es : List (String × Node)) :
    ((directory es).setChild name new).child? other = if other = name then new else (directory es).child? other := by
  cases new with
  | some node =>
    rw [setChild, child?, entries, insertEntry_eq, Dict.lookup_insertEntry]
    rfl
  | none =>
    rw [setChild, child?, entries, eraseEntry, lookup_filter_key (fun k => k != name)]
    by_cases h : other = name
    · simp [h]
    · simp [h, child?, entries]

/-! ## Locations -/

/-- What a node is: a directory, or a file with its bytes. -/
inductive Kind where
  | directory
  | file (bytes : ByteArray)

/-- What a node is, without what is in it. -/
def kind : Node → Kind
  | .directory _ => .directory
  | .file bytes => .file bytes

/-- What is seen at a location: nothing, a directory, or a file with its bytes. -/
def view (node : Node) (l : Location) : Option Kind :=
  (node.at? l).map kind

/-- There is a directory at a location. -/
def IsDirAt (node : Node) (l : Location) : Prop :=
  ∃ es, node.at? l = some (directory es)

/-- A location inside another one is looked up from there. -/
theorem at?_append (node : Node) (l l' : Location) : node.at? (l ++ l') = (node.at? l).bind (at? l') := by
  induction l generalizing node with
  | nil => rfl
  | cons name l ih =>
    rw [List.cons_append, at?, at?, Option.bind_assoc]
    exact congrArg _ (funext ih)

/-- What has something in it is a directory. -/
theorem isDirAt_of_at?_append {node inner : Node} {l : Location} {name : String} {rest : Location}
    (h : node.at? (l ++ name :: rest) = some inner) : node.IsDirAt l := by
  rw [at?_append] at h
  obtain ⟨outer, houter, h⟩ := Option.bind_eq_some_iff.1 h
  cases outer with
  | directory es => exact ⟨es, houter⟩
  | file bytes => nomatch h

/-- Every proper prefix of a location where something is leads to a directory. -/
theorem isDirAt_of_isPrefix {node inner : Node} {l l' : Location} (h : node.at? l' = some inner) (hp : l <+: l') (hne : l ≠ l') :
    node.IsDirAt l := by
  obtain ⟨rest, rfl⟩ := hp
  cases rest with
  | nil => exact absurd (List.append_nil l).symm hne
  | cons name rest => exact isDirAt_of_at?_append h

/-! ## Changes -/

/-- A change further inside goes through the entry that leads there. -/
theorem set_cons (node : Node) (new : Option Node) (name : String) {l : Location} (hl : l ≠ []) :
    node.set new (name :: l) =
      match node.child? name with
      | some inner => node.setChild name (some (inner.set new l))
      | none => node := by
  cases l with
  | nil => exact absurd rfl hl
  | cons next rest => rfl

/-- The entries of a node after a change at a location: only the one that leads there is touched. -/
theorem child?_set_of_ne (node : Node) (new : Option Node) {name other : String} (h : other ≠ name) (l : Location) :
    (node.set new (name :: l)).child? other = node.child? other := by
  have hset : ∀ new' : Option Node, (node.setChild name new').child? other = node.child? other := by
    intro new'
    cases node with
    | file bytes => rfl
    | directory es => rw [child?_setChild, if_neg h]
  cases l with
  | nil => exact hset new
  | cons next rest =>
    rw [set_cons node new name (by simp)]
    split
    · exact hset _
    · rfl

/-- A change further inside is a change of the entry that leads there. -/
theorem child?_set_self (node : Node) (new : Option Node) (name : String) {l : Location} (hl : l ≠ []) :
    (node.set new (name :: l)).child? name = (node.child? name).map (set new l) := by
  rw [set_cons node new name hl]
  cases hc : node.child? name with
  | none => exact hc
  | some inner =>
    cases node with
    | file bytes => nomatch hc
    | directory es => rw [child?_setChild, if_pos rfl, Option.map_some]

/-- A change inside a location is a change of what is there. -/
theorem at?_set_append (node : Node) (new : Option Node) (l : Location) {l' : Location} (hl : l' ≠ []) :
    (node.set new (l ++ l')).at? l = (node.at? l).map (set new l') := by
  induction l generalizing node with
  | nil => rfl
  | cons name l ih =>
    have hne : l ++ l' ≠ [] := fun h => hl (List.append_eq_nil_iff.1 h).2
    rw [List.cons_append, at?, at?, child?_set_self node new name hne]
    cases node.child? name with
    | none => rfl
    | some inner => exact ih inner

/-- At the location of a change there is the new node, if a directory leads there. -/
theorem at?_set_concat (node : Node) (new : Option Node) (l : Location) (name : String) :
    (node.set new (l ++ [name])).at? (l ++ [name]) =
      match node.at? l with
      | some (directory _) => new
      | _ => none := by
  rw [at?_append, at?_set_append node new l (by simp)]
  cases node.at? l with
  | none => rfl
  | some inner =>
    cases inner with
    | file bytes => rfl
    | directory es =>
      change (((directory es).setChild name new).child? name).bind (at? []) = new
      rw [child?_setChild, if_pos rfl]
      cases new with
      | none => rfl
      | some node => rfl

/-- A change is not seen at locations that are neither above nor below it. -/
theorem at?_set_of_apart (node : Node) (new : Option Node) {l l' : Location} (h : ¬l <+: l') (h' : ¬l' <+: l) :
    (node.set new l).at? l' = node.at? l' := by
  induction l generalizing node l' with
  | nil => exact absurd (List.nil_prefix) h
  | cons name l ih =>
    cases l' with
    | nil => exact absurd (List.nil_prefix) h'
    | cons other l' =>
      rw [at?, at?]
      by_cases hn : other = name
      · subst hn
        rw [List.cons_prefix_cons, not_and] at h h'
        have hl : l ≠ [] := by
          rintro rfl
          exact h rfl List.nil_prefix
        rw [child?_set_self node new other hl]
        cases node.child? other with
        | none => rfl
        | some inner => exact ih inner (h rfl) (h' rfl)
      · rw [child?_set_of_ne node new hn]

/-- A node stays what it is when something inside it is changed. -/
theorem kind_set (new : Option Node) {l : Location} (hl : l ≠ []) (node : Node) : (node.set new l).kind = node.kind := by
  have hchild : ∀ (name : String) (new : Option Node), (node.setChild name new).kind = node.kind := by
    intro name new
    cases node with
    | file bytes => rfl
    | directory es =>
      cases new with
      | none => rfl
      | some node => rfl
  cases l with
  | nil => exact absurd rfl hl
  | cons name l =>
    by_cases hne : l = []
    · subst hne
      exact hchild name new
    · rw [set_cons node new name hne]
      split
      · exact hchild name _
      · rfl

/-- Directories that are not at or below the location of a change stay directories. -/
theorem IsDirAt.set {node : Node} {l l' : Location} (h : node.IsDirAt l') (hl : ¬l <+: l') (new : Option Node) :
    (node.set new l).IsDirAt l' := by
  obtain ⟨es, hes⟩ := h
  by_cases hp : l' <+: l
  · obtain ⟨rest, rfl⟩ := hp
    have hrest : rest ≠ [] := by
      rintro rfl
      rw [List.append_nil] at hl
      exact hl List.prefix_rfl
    have hat := at?_set_append node new l' hrest
    have hkind := kind_set new hrest (directory es)
    rw [hes, Option.map_some] at hat
    cases hset : (directory es).set new rest with
    | file bytes =>
      rw [hset] at hkind
      nomatch hkind
    | directory es' =>
      rw [hset] at hat
      exact ⟨es', hat⟩
  · refine ⟨es, ?_⟩
    rw [at?_set_of_apart node new hl hp]
    exact hes

/-- A change is not seen at locations that are not at or below it. -/
theorem view_set_of_not_isPrefix (node : Node) (new : Option Node) {l l' : Location} (h : ¬l <+: l') :
    (node.set new l).view l' = node.view l' := by
  unfold view
  by_cases hp : l' <+: l
  · obtain ⟨rest, rfl⟩ := hp
    have hrest : rest ≠ [] := by
      rintro rfl
      rw [List.append_nil] at h
      exact h List.prefix_rfl
    rw [at?_set_append node new l' hrest, Option.map_map]
    exact congrArg (Option.map · _) (funext (kind_set new hrest))
  · rw [at?_set_of_apart node new h hp]

/-- At and below a change in a directory there is the new node. -/
theorem view_set_append {node : Node} {l : Location} (h : node.IsDirAt l) (name : String) (new : Option Node) (l' : Location) :
    (node.set new (l ++ [name])).view (l ++ [name] ++ l') = new.bind (view · l') := by
  obtain ⟨es, hes⟩ := h
  unfold view
  rw [at?_append, at?_set_concat, hes, Option.map_bind]
  rfl

theorem isDirAt_iff_view (node : Node) (l : Location) : node.IsDirAt l ↔ node.view l = some .directory := by
  unfold IsDirAt view
  rw [Option.map_eq_some_iff]
  constructor
  · rintro ⟨es, hes⟩
    exact ⟨_, hes, rfl⟩
  · rintro ⟨inner, hinner, hkind⟩
    cases inner with
    | directory es => exact ⟨es, hinner⟩
    | file bytes => nomatch hkind

theorem at?_eq_file_iff_view (node : Node) (l : Location) (bytes : ByteArray) :
    node.at? l = some (.file bytes) ↔ node.view l = some (.file bytes) := by
  unfold view
  cases node.at? l with
  | none => simp
  | some inner =>
    cases inner with
    | directory es => simp [kind]
    | file old => simp [kind]

/-- Below what is no directory there is nothing. -/
theorem view_append_of_not_isDirAt {node : Node} {l : Location} (h : ¬node.IsDirAt l) {l' : Location} (hl : l' ≠ []) :
    node.view (l ++ l') = none := by
  obtain ⟨name, rest, rfl⟩ := List.exists_cons_of_ne_nil hl
  unfold view
  rw [Option.map_eq_none_iff]
  refine Option.eq_none_iff_forall_ne_some.2 fun inner hinner => h ?_
  exact isDirAt_of_at?_append hinner

end DeferredBinding.Node
