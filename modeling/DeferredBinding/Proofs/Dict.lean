import DeferredBinding.Dict
import DeferredBinding.Proofs.Lists

/-!
# Maps and their entries

A map is known by what it gives for each name: `Dict.get?_eq_some_iff` reads the entries off, `Dict.ext_get?` says that two
maps which give the same are equal, and `Dict.get?_ofList` says what a list of pairs fills a map with.
-/

namespace DeferredBinding

namespace Dict

variable {α : Type}

/-- The names of a map are different. -/
theorem names_nodup (d : Dict α) : d.names.Nodup := by
  have hlt : d.names.Pairwise (· < ·) := List.pairwise_map.2 d.increasing
  refine hlt.imp fun {a b} hab hne => ?_
  subst hne
  exact String.lt_irrefl a hab

/-- A map gives a value for a name exactly when it lists them together. -/
theorem get?_eq_some_iff (d : Dict α) (name : String) (value : α) :
    d.get? name = some value ↔ (name, value) ∈ d.entries :=
  ⟨mem_of_lookup_eq_some, lookup_eq_some_of_mem d.names_nodup⟩

/-- The empty map gives nothing. -/
@[simp] theorem get?_empty (name : String) : (empty : Dict α).get? name = none := rfl

/-- A name is listed exactly when there is a value under it. -/
theorem mem_names_iff (d : Dict α) (name : String) : name ∈ d.names ↔ ∃ value, d.get? name = some value := by
  constructor
  · intro h
    obtain ⟨⟨n, v⟩, he, rfl⟩ := List.mem_map.1 h
    exact ⟨v, (d.get?_eq_some_iff n v).2 he⟩
  · rintro ⟨v, hv⟩
    exact List.mem_map.2 ⟨(name, v), (d.get?_eq_some_iff name v).1 hv, rfl⟩

/-- Maps that give the same for every name are equal. -/
theorem ext_get? {d e : Dict α} (h : ∀ name, d.get? name = e.get? name) : d = e := by
  have nodup_entries : ∀ f : Dict α, f.entries.Nodup := by
    intro f
    refine f.increasing.imp fun {a b} hab hne => ?_
    subst hne
    exact String.lt_irrefl a.1 hab
  have hmem : ∀ a, a ∈ d.entries ↔ a ∈ e.entries := by
    rintro ⟨n, v⟩
    rw [← d.get?_eq_some_iff, ← e.get?_eq_some_iff, h n]
  have hperm : d.entries.Perm e.entries :=
    (List.perm_ext_iff_of_nodup (nodup_entries d) (nodup_entries e)).2 hmem
  refine ext (hperm.eq_of_pairwise ?_ d.increasing e.increasing)
  intro a b _ _ hab hba
  exact absurd hba (String.lt_asymm hab)

/-- A list of pairs put into a map one by one: the last pair of a name decides, and the old value where there is none. -/
theorem get?_foldl_insert (pairs : List (String × α)) (d : Dict α) (name : String) :
    (pairs.foldl (fun d p => d.insert p.1 p.2) d).get? name = (List.lookup name pairs.reverse).or (d.get? name) := by
  induction pairs generalizing d with
  | nil => rfl
  | cons p pairs ih =>
    obtain ⟨n, v⟩ := p
    rw [List.foldl_cons, ih, get?_insert, List.reverse_cons, List.lookup_append, Option.or_assoc]
    by_cases hn : name = n
    · simp [hn]
    · simp [hn, List.lookup_cons, beq_eq_false_iff_ne.2 hn]

/-- A map filled by a list of pairs gives the value of the last pair of a name. -/
theorem get?_ofList (pairs : List (String × α)) (name : String) :
    (ofList pairs).get? name = List.lookup name pairs.reverse := by
  rw [ofList, get?_foldl_insert, get?_empty, Option.or_none]

/-- A map is filled by its own entries. -/
theorem ofList_entries (d : Dict α) : ofList d.entries = d := by
  refine ext_get? fun name => ?_
  rw [get?_ofList, lookup_reverse d.names_nodup]
  rfl

end Dict

end DeferredBinding
