/-!
Finite maps from names to values, kept in the order of the names. Two maps with the same values under the same names
are equal, whatever the order in which they were filled.
-/
namespace DeferredBinding

/-- Entries whose names increase. -/
def Increasing {α : Type} (entries : List (String × α)) : Prop :=
  entries.Pairwise fun a b => a.1 < b.1

/-- A map from names to values. -/
structure Dict (α : Type) where
  entries : List (String × α)
  increasing : Increasing entries

namespace Dict

variable {α : Type}

/-- The entries with a value put under a name, in the place that the name has. -/
def insertEntry (name : String) (value : α) : List (String × α) → List (String × α)
  | [] => [(name, value)]
  | (k, old) :: rest =>
    if k = name then (name, value) :: rest
    else if name < k then (name, value) :: (k, old) :: rest
    else (k, old) :: insertEntry name value rest

/-- An entry after an insertion is the new one or an old one. -/
theorem mem_insertEntry {name : String} {value : α} {l : List (String × α)} {e : String × α}
    (h : e ∈ insertEntry name value l) : e = (name, value) ∨ e ∈ l := by
  induction l with
  | nil => simpa [insertEntry] using h
  | cons a rest ih =>
    obtain ⟨k, old⟩ := a
    simp only [insertEntry] at h
    split at h
    · rcases List.mem_cons.1 h with h | h
      · exact .inl h
      · exact .inr (List.mem_cons_of_mem _ h)
    · split at h
      · rcases List.mem_cons.1 h with h | h
        · exact .inl h
        · exact .inr h
      · rcases List.mem_cons.1 h with h | h
        · exact .inr (by simp [h])
        · rcases ih h with h | h
          · exact .inl h
          · exact .inr (List.mem_cons_of_mem _ h)

/-- An insertion keeps the names increasing. -/
theorem increasing_insertEntry {name : String} {value : α} {l : List (String × α)} (h : Increasing l) :
    Increasing (insertEntry name value l) := by
  induction l with
  | nil => simp [insertEntry, Increasing]
  | cons a rest ih =>
    obtain ⟨k, old⟩ := a
    obtain ⟨hk, hrest⟩ := List.pairwise_cons.1 h
    simp only [insertEntry]
    split
    · rename_i heq
      subst heq
      exact List.pairwise_cons.2 ⟨hk, hrest⟩
    · rename_i hne
      split
      · rename_i hlt
        refine List.pairwise_cons.2 ⟨fun e he => ?_, h⟩
        rcases List.mem_cons.1 he with he | he
        · subst he
          exact hlt
        · exact String.lt_trans hlt (hk e he)
      · rename_i hnlt
        have hgt : k < name := by
          rcases String.le_total k name with hle | hle
          · by_cases hlt : k < name
            · exact hlt
            · exact absurd (String.le_antisymm hle (String.not_lt.1 hlt)) hne
          · exact absurd (String.le_antisymm (String.not_lt.1 hnlt) hle) hne
        refine List.pairwise_cons.2 ⟨fun e he => ?_, ih hrest⟩
        rcases mem_insertEntry he with he | he
        · subst he
          exact hgt
        · exact hk e he

/-- Looking up a name after an insertion finds the new value under its name and the old one under any other. -/
theorem lookup_insertEntry (name other : String) (value : α) (l : List (String × α)) :
    List.lookup other (insertEntry name value l) = if other = name then some value else List.lookup other l := by
  induction l with
  | nil =>
    by_cases h : other = name
    · simp [insertEntry, h]
    · simp [insertEntry, List.lookup_cons, h, beq_eq_false_iff_ne.2 h]
  | cons a rest ih =>
    obtain ⟨k, old⟩ := a
    simp only [insertEntry]
    split
    · rename_i hk
      subst hk
      by_cases h : other = k
      · simp [h]
      · simp [List.lookup_cons, h, beq_eq_false_iff_ne.2 h]
    · rename_i hk
      split
      · by_cases h : other = name
        · simp [h]
        · simp [List.lookup_cons, h, beq_eq_false_iff_ne.2 h]
      · by_cases h : other = k
        · subst h
          simp [hk]
        · simp only [List.lookup_cons, beq_eq_false_iff_ne.2 h, ih]

/-- The map without entries. -/
def empty : Dict α :=
  ⟨[], List.Pairwise.nil⟩

/-- The map with a value put under a name, in the place of one that is there. -/
def insert (d : Dict α) (name : String) (value : α) : Dict α :=
  ⟨insertEntry name value d.entries, increasing_insertEntry d.increasing⟩

/-- The value under a name. -/
def get? (d : Dict α) (name : String) : Option α :=
  List.lookup name d.entries

@[simp] theorem get?_insert (d : Dict α) (name other : String) (value : α) :
    (d.insert name value).get? other = if other = name then some value else d.get? other :=
  lookup_insertEntry name other value d.entries

/-- Whether there is a value under a name. -/
def contains (d : Dict α) (name : String) : Bool :=
  (d.get? name).isSome

/-- The names in order. -/
def names (d : Dict α) : List String :=
  d.entries.map (·.1)

/-- Whether a map has no entries. -/
def isEmpty (d : Dict α) : Bool :=
  d.entries.isEmpty

/-- The map that a list of pairs fills, a later pair winning over an earlier one. -/
def ofList (pairs : List (String × α)) : Dict α :=
  pairs.foldl (fun d p => d.insert p.1 p.2) .empty

/-- Maps are equal when their entries are. -/
theorem ext {d e : Dict α} (h : d.entries = e.entries) : d = e := by
  cases d
  cases e
  cases h
  rfl

/-- Equality of maps is decided by their entries. -/
instance [DecidableEq α] : DecidableEq (Dict α) := fun d e =>
  if h : d.entries = e.entries then .isTrue (ext h)
  else .isFalse fun he => h (he ▸ rfl)

end Dict

end DeferredBinding
