import Mathlib.Data.List.Forall2
import Mathlib.Data.List.Nodup

/-!
# Lists

What the theory uses of lists in general. A list without its repetitions keeps every element where it first comes up
(`eraseDups_concat`, `eraseDups_map`). A list of pairs is looked through for a key (`lookup_eq_some_of_mem`,
`lookup_eq_none_iff_not_mem`). A step that is taken for a whole list is taken for each of its elements, in any monad
(`mapM_eq_pure`, `exists_pure_of_mapM`). Two lists are compared element by element (`eq_of_map_eq`, `exists_of_forall₂`).
-/

namespace DeferredBinding

/-! ## First occurrences -/

/-- An element that is new goes to the end, and one that is there changes nothing. -/
theorem eraseDups_concat {α : Type} [BEq α] [LawfulBEq α] (l : List α) (a : α) [Decidable (a ∈ l)] :
    (l ++ [a]).eraseDups = if a ∈ l then l.eraseDups else l.eraseDups ++ [a] := by
  rw [List.eraseDups_append]
  split
  · rename_i h
    simp [List.removeAll, h]
  · rename_i h
    simp [List.removeAll, h, List.eraseDups_cons]

/-- Nothing is left twice. -/
theorem nodup_eraseDups {α : Type} [BEq α] [LawfulBEq α] (l : List α) : l.eraseDups.Nodup := by
  match l with
  | [] => exact List.nodup_nil
  | a :: l =>
    rw [List.eraseDups_cons, List.nodup_cons]
    exact ⟨by simp [List.mem_eraseDups], nodup_eraseDups (l.filter fun b => !b == a)⟩
termination_by l.length
decreasing_by exact Nat.lt_succ_of_le (List.length_filter_le ..)

/-- A list without repetition stays as it is. -/
theorem eraseDups_of_nodup {α : Type} [BEq α] [LawfulBEq α] {l : List α} (h : l.Nodup) : l.eraseDups = l := by
  induction l with
  | nil => exact List.eraseDups_nil
  | cons a l ih =>
    rw [List.nodup_cons] at h
    have hkeep : l.filter (fun b => !b == a) = l := by
      refine List.filter_eq_self.2 fun b hb => ?_
      have hne : b ≠ a := fun he => h.1 (he ▸ hb)
      simpa using hne
    rw [List.eraseDups_cons, hkeep, ih h.2]

/-- An injective function keeps first occurrences. -/
theorem eraseDups_map {α β : Type} [BEq α] [LawfulBEq α] [BEq β] [LawfulBEq β] {f : α → β} (hf : Function.Injective f)
    (l : List α) : (l.map f).eraseDups = l.eraseDups.map f := by
  match l with
  | [] => rfl
  | a :: l =>
    have hrest : (l.map f).filter (fun b => !b == f a) = (l.filter fun b => !b == a).map f := by
      rw [List.filter_map]
      refine congrArg (List.map f) (List.filter_congr fun b _ => ?_)
      simp only [Function.comp_apply, Bool.not_eq_eq_eq_not, Bool.not_not, beq_eq_beq, hf.eq_iff]
    rw [List.map_cons, List.eraseDups_cons, List.eraseDups_cons, hrest, eraseDups_map hf, List.map_cons]
termination_by l.length
decreasing_by exact Nat.lt_succ_of_le (List.length_filter_le ..)

/-! ## Lists of pairs -/

/-- What is found under a key is listed with it. -/
theorem mem_of_lookup_eq_some {α β : Type} [BEq α] [LawfulBEq α] {l : List (α × β)} {k : α} {v : β}
    (h : List.lookup k l = some v) : (k, v) ∈ l := by
  obtain ⟨l₁, l₂, rfl, _⟩ := List.lookup_eq_some_iff.1 h
  exact List.mem_append_right _ (List.mem_cons_self ..)

/-- In a list with different keys, what is listed with a key is found under it. -/
theorem lookup_eq_some_of_mem {α β : Type} [BEq α] [LawfulBEq α] {l : List (α × β)} (hd : (l.map (·.1)).Nodup) {k : α}
    {v : β} (h : (k, v) ∈ l) : List.lookup k l = some v := by
  induction l with
  | nil => cases h
  | cons a l ih =>
    obtain ⟨k', v'⟩ := a
    rw [List.map_cons, List.nodup_cons] at hd
    rcases List.mem_cons.1 h with he | hm
    · cases he
      exact List.lookup_cons_self
    · have hne : k ≠ k' := by
        rintro rfl
        exact hd.1 (List.mem_map.2 ⟨(k, v), hm, rfl⟩)
      rw [List.lookup_cons, beq_eq_false_iff_ne.2 hne]
      exact ih hd.2 hm

/-- In a list with different keys, it does not matter from which end a key is looked for. -/
theorem lookup_reverse {α β : Type} [BEq α] [LawfulBEq α] {l : List (α × β)} (hd : (l.map (·.1)).Nodup) (k : α) :
    List.lookup k l.reverse = List.lookup k l := by
  have hd' : (l.reverse.map (·.1)).Nodup := by
    rw [List.map_reverse, List.nodup_reverse]
    exact hd
  refine Option.ext fun v => ⟨fun h => ?_, fun h => ?_⟩
  · exact lookup_eq_some_of_mem hd (List.mem_reverse.1 (mem_of_lookup_eq_some h))
  · exact lookup_eq_some_of_mem hd' (List.mem_reverse.2 (mem_of_lookup_eq_some h))

/-- Of the pairs whose keys pass a test, a key that passes it is found where it was, and any other is not found. -/
theorem lookup_filter_key {α β : Type} [BEq α] [LawfulBEq α] (test : α → Bool) (l : List (α × β)) (k : α) :
    List.lookup k (l.filter fun p => test p.1) = if test k then List.lookup k l else none := by
  induction l with
  | nil => simp
  | cons p l ih =>
    obtain ⟨k', v⟩ := p
    by_cases hk : k = k'
    · subst hk
      by_cases ht : test k
      · simp [ht]
      · rw [List.filter_cons_of_neg (by simpa using ht), ih, if_neg ht, if_neg ht]
    · have hb : (k == k') = false := beq_eq_false_iff_ne.2 hk
      by_cases ht : test k'
      · simp [List.filter_cons_of_pos, ht, List.lookup_cons, hb, ih]
      · rw [List.filter_cons_of_neg (by simpa using ht), ih, List.lookup_cons, hb]

/-- A key is not found in a list of pairs exactly when it is none of its keys. -/
theorem lookup_eq_none_iff_not_mem {α β : Type} [BEq α] [LawfulBEq α] {l : List (α × β)} {k : α} :
    List.lookup k l = none ↔ k ∉ l.map (·.1) := by
  rw [List.lookup_eq_none_iff, List.mem_map]
  constructor
  · rintro h ⟨p, hp, rfl⟩
    exact absurd (h p hp) (by simp)
  · intro h p hp
    exact bne_iff_ne.2 fun he => h ⟨p, hp, he.symm⟩

/-! ## Steps for every element -/

section Steps

variable {m : Type → Type} [Monad m] [LawfulMonad m] {α β : Type} {f : α → m β} {l : List α}

/-- Steps that all give a value give the list of the values. -/
theorem mapM_eq_pure {g : α → β} (h : ∀ a ∈ l, f a = pure (g a)) : l.mapM f = pure (l.map g) := by
  induction l with
  | nil => exact List.mapM_nil
  | cons a l ih =>
    rw [List.mapM_cons, h a List.mem_cons_self, ih fun b hb => h b (List.mem_cons_of_mem _ hb)]
    simp

/-- Where only values lead to a value, steps that give a list give a value for each element. -/
theorem exists_pure_of_mapM
    (hbind : ∀ {γ δ : Type} {x : m γ} {k : γ → m δ} {d : δ}, x >>= k = pure d → ∃ c, x = pure c ∧ k c = pure d)
    {l' : List β} (h : l.mapM f = pure l') : ∀ a ∈ l, ∃ b, f a = pure b := by
  induction l generalizing l' with
  | nil => simp
  | cons a l ih =>
    rw [List.mapM_cons] at h
    obtain ⟨b, hb, h⟩ := hbind h
    obtain ⟨bs, hbs, -⟩ := hbind h
    exact List.forall_mem_cons.2 ⟨⟨b, hb⟩, ih hbs⟩

end Steps

/-- What succeeds for a list succeeds for each element. -/
theorem isSome_of_mapM {α β : Type} {f : α → Option β} {l : List α} (h : (l.mapM f).isSome = true) {a : α} (ha : a ∈ l) :
    (f a).isSome = true := by
  obtain ⟨l', hl'⟩ := Option.isSome_iff_exists.1 h
  obtain ⟨b, hb⟩ := exists_pure_of_mapM Option.bind_eq_some_iff.1 hl' a ha
  exact Option.isSome_iff_exists.2 ⟨b, hb⟩

/-- A step that was taken for a whole list was taken for each of its elements. -/
theorem exists_ok_of_mapM {ε α β : Type} {f : α → Except ε β} {l : List α} {l' : List β} (h : l.mapM f = .ok l') :
    ∀ a ∈ l, ∃ b, f a = .ok b := by
  refine exists_pure_of_mapM (fun {γ δ x k d} hx => ?_) h
  cases x with
  | error e => cases hx
  | ok c => exact ⟨c, rfl, hx⟩

/-! ## Two lists -/

/-- Lists are equal when a function that tells their elements apart makes them equal. -/
theorem eq_of_map_eq {α β : Type} {f : α → β} {l l' : List α} (hf : ∀ a ∈ l, ∀ b ∈ l', f a = f b → a = b)
    (he : l.map f = l'.map f) : l = l' := by
  induction l generalizing l' with
  | nil => exact (List.map_eq_nil_iff.1 he.symm).symm
  | cons a l ih =>
    cases l' with
    | nil => cases he
    | cons b l' =>
      obtain ⟨hab, hrest⟩ := List.cons.inj he
      rw [hf a List.mem_cons_self b List.mem_cons_self hab,
        ih (fun c hc d hd => hf c (List.mem_cons_of_mem _ hc) d (List.mem_cons_of_mem _ hd)) hrest]

/-- What belongs to an element of the first of two lists that belong together. -/
theorem exists_of_forall₂ {α β : Type} {R : α → β → Prop} {l : List α} {l' : List β} (h : List.Forall₂ R l l') {a : α}
    (ha : a ∈ l) : ∃ b, R a b := by
  induction h with
  | nil => cases ha
  | @cons a' b l l' hab _ ih =>
    rcases List.mem_cons.1 ha with rfl | ha
    · exact ⟨b, hab⟩
    · exact ih ha

end DeferredBinding
