import DeferredBinding.Proofs.Property.Rows
import Mathlib.Data.List.Pairwise

/-!
# The permutations of a model

The permutations are the rows, put into classes of rows that compile alike. `IsEnumeration` says this without the keys that
the classes are found by, and `permutations_isEnumeration` says that it holds of every reachable model.
-/

namespace DeferredBinding

/-! ## Values and rows that compile alike -/

/-- Two values of a property compile alike: they are equal, or in one group, or all values of the property compile alike. -/
def Binding.Alike (b : Binding) (v w : String) : Prop :=
  v = w ∨ (∃ group ∈ b.collapse, v ∈ group ∧ w ∈ group) ∨ b.collapseAll = true

/-- Two rows compile alike: their values do, property by property. -/
def RowsAlike : List Binding → Row → Row → Prop
  | [], [], [] => True
  | b :: bs, v :: row, w :: row' => b.Alike v w ∧ RowsAlike bs row row'
  | _, _, _ => False

namespace Binding

/-- A value is in at most one group of a valid property. -/
theorem Valid.group_unique {b : Binding} (h : b.Valid) {g g' : List String} (hg : g ∈ b.collapse) (hg' : g' ∈ b.collapse)
    {v : String} (hv : v ∈ g) (hv' : v ∈ g') : g = g' := by
  by_contra hne
  have hp : b.collapse.Pairwise List.Disjoint := (List.nodup_flatten.1 h.grouped_once).2
  have : Std.Symm (List.Disjoint (α := String)) := ⟨fun _ _ hd _ ha hb => hd hb ha⟩
  exact hp.forall hg hg' hne hv hv'

theorem Alike.symm {b : Binding} {v w : String} (h : b.Alike v w) : b.Alike w v := by
  rcases h with rfl | ⟨g, hg, hv, hw⟩ | hc
  · exact Or.inl rfl
  · exact Or.inr (Or.inl ⟨g, hg, hw, hv⟩)
  · exact Or.inr (Or.inr hc)

/-- For a valid property, to compile alike is transitive: its groups are disjoint. -/
theorem Valid.alike_trans {b : Binding} (h : b.Valid) {u v w : String} (huv : b.Alike u v) (hvw : b.Alike v w) :
    b.Alike u w := by
  rcases huv with rfl | ⟨g, hg, hu, hv⟩ | hc
  · exact hvw
  · rcases hvw with rfl | ⟨g', hg', hv', hw⟩ | hc
    · exact Or.inr (Or.inl ⟨g, hg, hu, hv⟩)
    · obtain rfl := h.group_unique hg hg' hv hv'
      exact Or.inr (Or.inl ⟨g, hg, hu, hw⟩)
    · exact Or.inr (Or.inr hc)
  · exact Or.inr (Or.inr hc)

/-- A value compiles like its representative. -/
theorem alike_representative (b : Binding) (v : String) : b.Alike v (b.representative v) := by
  unfold representative
  split
  · rename_i hc
    exact Or.inr (Or.inr hc)
  · split
    · rename_i g hf
      have hg : g ∈ b.collapse := List.mem_of_find?_eq_some hf
      have hv : v ∈ g := by simpa using List.find?_some hf
      cases g with
      | nil => nomatch hv
      | cons first rest => exact Or.inr (Or.inl ⟨_, hg, hv, List.mem_cons_self ..⟩)
    · exact Or.inl rfl

/-- A grouped value of a valid property is represented by the first of its group. -/
theorem Valid.representative_of_mem {b : Binding} (h : b.Valid) (hc : b.collapseAll = false) {g : List String}
    (hg : g ∈ b.collapse) {v : String} (hv : v ∈ g) : some (b.representative v) = g.head? := by
  cases hf : b.collapse.find? (·.contains v) with
  | none => exact absurd (List.contains_iff_mem.2 hv) (List.find?_eq_none.1 hf g hg)
  | some g' =>
    have hg' : g' ∈ b.collapse := List.mem_of_find?_eq_some hf
    have hv' : v ∈ g' := by simpa using List.find?_some hf
    obtain rfl := h.group_unique hg' hg hv' hv
    cases g' with
    | nil => nomatch hv
    | cons first rest =>
      rw [representative, hc, if_neg Bool.false_ne_true, hf]
      rfl

/-- Values of a valid property have one representative exactly when they compile alike. -/
theorem Valid.representative_eq_iff {b : Binding} (h : b.Valid) (v w : String) :
    b.representative v = b.representative w ↔ b.Alike v w := by
  constructor
  · intro he
    have hw : b.Alike (b.representative v) w := he ▸ (b.alike_representative w).symm
    exact h.alike_trans (b.alike_representative v) hw
  · intro ha
    cases hc : b.collapseAll with
    | true =>
      obtain ⟨first, rest, hvs⟩ := List.exists_cons_of_ne_nil h.nonempty
      simp [representative, hc, hvs]
    | false =>
      rcases ha with rfl | ⟨g, hg, hv, hw⟩ | hc'
      · rfl
      · have := (h.representative_of_mem hc hg hv).trans (h.representative_of_mem hc hg hw).symm
        exact Option.some.inj this
      · rw [hc] at hc'
        nomatch hc'

end Binding

/-- Rows of valid properties have one row of representatives exactly when they compile alike. -/
theorem representatives_eq_iff {bs : List Binding} (h : ∀ b ∈ bs, b.Valid) {row row' : Row} (hr : IsRow bs row)
    (hr' : IsRow bs row') : representatives bs row = representatives bs row' ↔ RowsAlike bs row row' := by
  induction bs generalizing row row' with
  | nil =>
    cases hr
    cases hr'
    simp [representatives, RowsAlike]
  | cons b bs ih =>
    cases hr with
    | @cons _ v _ r _ hr =>
      cases hr' with
      | @cons _ w _ r' _ hr' =>
        have hrest := ih (fun d hd => h d (List.mem_cons_of_mem _ hd)) hr hr'
        have hhead := (h b (List.mem_cons_self ..)).representative_eq_iff v w
        simp only [representatives, List.zipWith_cons_cons, List.cons.injEq, RowsAlike] at hrest ⊢
        rw [hhead, hrest]

/-! ## Classes -/

/-- The rows of a list that have another key than a row. -/
def otherKeys (key : Row → Row) (row : Row) (l : List Row) : List Row :=
  l.filter fun r => key r ≠ key row

/-- The classes of a list of rows: the first row opens a class for all rows with its key, and the rows with other keys are
put into classes in the same way. -/
def classesBy (key : Row → Row) : List Row → List RowClass
  | [] => []
  | row :: rest => ⟨key row, row :: rest.filter fun r => key r = key row⟩ :: classesBy key (otherKeys key row rest)
termination_by l => l.length
decreasing_by exact Nat.lt_succ_of_le (List.length_filter_le ..)

/-- A row joins the class of its key where there is one. -/
theorem classify_of_mem {cs : List RowClass} (h : (cs.map (·.key)).Nodup) {key : Row} (hk : key ∈ cs.map (·.key)) (row : Row) :
    classify key row cs = cs.map fun c => if c.key = key then { c with members := c.members ++ [row] } else c := by
  induction cs with
  | nil => nomatch hk
  | cons c cs ih =>
    rw [List.map_cons, List.nodup_cons] at h
    simp only [classify, List.map_cons]
    split
    · rename_i hc
      have hrest : ∀ d ∈ cs, d.key ≠ key := by
        intro d hd he
        exact h.1 (List.mem_map.2 ⟨d, hd, he.trans hc.symm⟩)
      have : (cs.map fun d => if d.key = key then { d with members := d.members ++ [row] } else d) = cs.map id :=
        List.map_congr_left fun d hd => if_neg (hrest d hd)
      rw [this, List.map_id]
    · rename_i hc
      rcases List.mem_cons.1 hk with hk | hk
      · exact absurd hk.symm hc
      · rw [ih h.2 hk]

/-- A row opens a class at the end where there is none of its key. -/
theorem classify_of_not_mem {cs : List RowClass} {key : Row} (hk : key ∉ cs.map (·.key)) (row : Row) :
    classify key row cs = cs ++ [⟨key, [row]⟩] := by
  induction cs with
  | nil => rfl
  | cons c cs ih =>
    rw [List.map_cons, List.mem_cons, not_or] at hk
    rw [classify, if_neg (fun he => hk.1 he.symm), ih hk.2, List.cons_append]

/-- Classifying rows one by one: the classes that are there take in the rows with their keys, and the others make classes of
their own behind them. -/
theorem foldl_classify (key : Row → Row) (l : List Row) {cs : List RowClass} (h : (cs.map (·.key)).Nodup) :
    l.foldl (fun classes row => classify (key row) row classes) cs =
      (cs.map fun c => { c with members := c.members ++ l.filter fun r => key r = c.key }) ++
        classesBy key (l.filter fun r => key r ∉ cs.map (·.key)) := by
  induction l generalizing cs with
  | nil => simp [classesBy]
  | cons row l ih =>
    rw [List.foldl_cons]
    by_cases hk : key row ∈ cs.map (·.key)
    · have hkeys : (cs.map fun c => if c.key = key row then { c with members := c.members ++ [row] } else c).map (·.key) =
          cs.map (·.key) := by
        rw [List.map_map]
        refine List.map_congr_left fun c _ => ?_
        simp only [Function.comp_apply]
        split
        · rfl
        · rfl
      rw [classify_of_mem h hk, ih (hkeys ▸ h), hkeys, List.filter_cons_of_neg (by simpa using hk), List.map_map]
      congr 1
      refine List.map_congr_left fun c _ => ?_
      simp only [Function.comp_apply]
      by_cases hc : c.key = key row
      · simp [hc]
      · have hc' : ¬key row = c.key := fun e => hc e.symm
        simp [hc, hc']
    · have hkeys : (cs ++ [⟨key row, [row]⟩] : List RowClass).map (·.key) = cs.map (·.key) ++ [key row] := by
        rw [List.map_append]
        rfl
      have hnodup : (cs.map (·.key) ++ [key row]).Nodup := by
        rw [List.nodup_append]
        refine ⟨h, List.nodup_singleton _, ?_⟩
        intro a ha b hb he
        rw [List.mem_singleton.1 hb] at he
        exact hk (he ▸ ha)
      have hrow : ∀ c ∈ cs, ¬key row = c.key := by
        intro c hc he
        exact hk (List.mem_map.2 ⟨c, hc, he.symm⟩)
      rw [classify_of_not_mem hk, ih (hkeys ▸ hnodup), hkeys, List.filter_cons_of_pos (by simpa using hk), classesBy,
        List.map_append, List.append_assoc]
      congr 1
      · refine List.map_congr_left fun c hc => ?_
        rw [List.filter_cons_of_neg (by simpa using hrow c hc)]
      · have hsame : ((l.filter fun r => key r ∉ cs.map (·.key)).filter fun r => key r = key row) =
            l.filter fun r => key r = key row := by
          rw [List.filter_filter]
          refine List.filter_congr fun r _ => ?_
          by_cases hr : key r = key row
          · simpa [hr] using hk
          · simp [hr]
        have hother : otherKeys key row (l.filter fun r => key r ∉ cs.map (·.key)) =
            l.filter fun r => key r ∉ cs.map (·.key) ++ [key row] := by
          rw [otherKeys, List.filter_filter]
          refine List.filter_congr fun r _ => ?_
          simp [Bool.and_comm]
        rw [hsame, hother]
        rfl

/-- The classes of the rows of a model, found one after the other. -/
theorem rowClasses_eq (bs : List Binding) : rowClasses bs = classesBy (representatives bs) (rows bs) := by
  have hnil : (([] : List RowClass).map (·.key)).Nodup := List.nodup_nil
  have h := foldl_classify (representatives bs) (rows bs) hnil
  have hall : ((rows bs).filter fun r => representatives bs r ∉ ([] : List RowClass).map (·.key)) = rows bs := by
    simp
  rw [hall] at h
  exact h

/-- A class holds the rows with its key in their order, and there is one. -/
theorem members_of_mem_classesBy (key : Row → Row) (l : List Row) :
    ∀ c ∈ classesBy key l, (c.members = l.filter fun r => key r = c.key) ∧ c.members ≠ [] := by
  fun_induction classesBy key l with
  | case1 => exact fun c hc => (nomatch hc)
  | case2 row rest ih =>
    intro c hc
    rcases List.mem_cons.1 hc with rfl | hc
    · simp
    · obtain ⟨hm, hne⟩ := ih c hc
      rw [otherKeys, List.filter_filter] at hm
      have hkey : c.key ≠ key row := by
        obtain ⟨r, hr⟩ := List.exists_mem_of_ne_nil _ hne
        rw [hm, List.mem_filter] at hr
        simp only [Bool.and_eq_true, decide_eq_true_eq] at hr
        exact fun he => hr.2.2 (hr.2.1.trans he)
      refine ⟨?_, hne⟩
      rw [hm, List.filter_cons_of_neg (by simpa using hkey.symm)]
      refine List.filter_congr fun r _ => ?_
      by_cases hr : key r = c.key
      · simp [hr, hkey]
      · simp [hr]

/-- The first row of a class stands before all rows of the later classes. -/
theorem pairwise_classesBy {R : Row → Row → Prop} (key : Row → Row) {l : List Row} (h : l.Pairwise R) :
    (classesBy key l).Pairwise fun c d => ∀ r, c.members.head? = some r → ∀ s ∈ d.members, R r s := by
  fun_induction classesBy key l with
  | case1 => exact List.Pairwise.nil
  | case2 row rest ih =>
    rw [List.pairwise_cons] at h
    refine List.pairwise_cons.2 ⟨?_, ih (h.2.sublist List.filter_sublist)⟩
    intro d hd r hr s hs
    obtain rfl : row = r := by simpa using hr
    rw [(members_of_mem_classesBy key _ d hd).1, otherKeys, List.mem_filter, List.mem_filter] at hs
    exact h.1 s hs.1.1

/-- The classes hold every row once. -/
theorem flatMap_classesBy_perm (key : Row → Row) (l : List Row) : ((classesBy key l).flatMap (·.members)).Perm l := by
  fun_induction classesBy key l with
  | case1 => exact List.Perm.nil
  | case2 row rest ih =>
    rw [List.flatMap_cons, List.cons_append]
    refine List.Perm.cons row ?_
    have hsplit : ((rest.filter fun r => key r = key row) ++ otherKeys key row rest).Perm rest := by
      have := List.filter_append_perm (fun r => decide (key r = key row)) rest
      simpa [otherKeys] using this
    exact (List.Perm.append_left _ ih).trans hsplit

/-! ## The permutations as classes -/

/-- The oracle for a row. -/
def oracleOf (bs : List Binding) (row : Row) : Oracle :=
  ⟨bs.map (·.name), row⟩

theorem map_values_oracleOf (bs : List Binding) (l : List Row) : (l.map (oracleOf bs)).map (·.values) = l := by
  rw [List.map_map]
  exact List.map_id l

/-- The oracles of the permutations are those of the classes, in their order. -/
theorem map_oracles_permutations (m : Model) :
    m.permutations.map (·.oracles) = (rowClasses m.bindings).map fun c => c.members.map (oracleOf m.bindings) := by
  have hfst : (rowClasses m.bindings).zipIdx.map Prod.fst = rowClasses m.bindings := List.zipIdx_map_fst 0 _
  conv_rhs => rw [← hfst, List.map_map]
  rw [Model.permutations, List.map_map]
  rfl

/-- A permutation answers for the rows of a class. -/
theorem exists_class_of_mem {m : Model} {p : Permutation} (h : p ∈ m.permutations) :
    ∃ c ∈ rowClasses m.bindings, p.oracles = c.members.map (oracleOf m.bindings) := by
  have hp : p.oracles ∈ m.permutations.map (·.oracles) := List.mem_map_of_mem h
  rw [map_oracles_permutations] at hp
  obtain ⟨c, hc, he⟩ := List.mem_map.1 hp
  exact ⟨c, hc, he.symm⟩

/-- The class of a model's rows that compile like one of its members. -/
theorem mem_class_iff {m : Model} (h : m.WellFormed) {c : RowClass} (hc : c ∈ rowClasses m.bindings) {row row' : Row}
    (hr : row ∈ c.members) (hr' : row' ∈ rows m.bindings) : row' ∈ c.members ↔ RowsAlike m.bindings row row' := by
  rw [rowClasses_eq] at hc
  have hm := (members_of_mem_classesBy _ _ c hc).1
  rw [hm, List.mem_filter] at hr
  have hkey : representatives m.bindings row = c.key := by simpa using hr.2
  have hrow : ∀ r ∈ rows m.bindings, IsRow m.bindings r := fun r h' => (mem_rows_iff _ r).1 h'
  rw [hm, List.mem_filter, decide_eq_true_eq, ← hkey, ← representatives_eq_iff h.valid (hrow _ hr.1) (hrow _ hr')]
  exact ⟨fun he => he.2.symm, fun he => ⟨hr', he.symm⟩⟩

/-- A permutation has its place as its id. -/
theorem id_of_getElem? {m : Model} {i : Nat} {p : Permutation} (h : m.permutations[i]? = some p) : p.id = i := by
  rw [Model.permutations, List.getElem?_map, List.getElem?_zipIdx, Option.map_map, Option.map_eq_some_iff] at h
  obtain ⟨c, _, rfl⟩ := h
  simp

/-- The permutations stand in the order of the first rows of their classes. -/
theorem pairwise_firsts {m : Model} (h : m.WellFormed) :
    m.permutations.Pairwise
      fun p q => ∀ o, p.oracles.head? = some o → ∀ o' ∈ q.oracles, RowBefore m.bindings o.values o'.values := by
  have hp := pairwise_classesBy (representatives m.bindings) (rows_pairwise fun b hb => (h.valid b hb).distinct)
  rw [← rowClasses_eq] at hp
  have hq : (m.permutations.map (·.oracles)).Pairwise
      fun os os' => ∀ o, os.head? = some o → ∀ o' ∈ os', RowBefore m.bindings o.values o'.values := by
    rw [map_oracles_permutations, List.pairwise_map]
    refine hp.imp fun {c d} hcd => ?_
    intro o ho o' ho'
    rw [List.head?_map, Option.map_eq_some_iff] at ho
    obtain ⟨r, hr, rfl⟩ := ho
    obtain ⟨s, hs, rfl⟩ := List.mem_map.1 ho'
    exact hcd r hr s hs
  exact List.pairwise_map.1 hq

/-- Over all permutations, every row is answered for once. -/
theorem flatMap_oracles_perm (m : Model) :
    (m.permutations.flatMap (·.oracles)).Perm ((rows m.bindings).map (oracleOf m.bindings)) := by
  have hflat : m.permutations.flatMap (·.oracles) =
      ((rowClasses m.bindings).flatMap (·.members)).map (oracleOf m.bindings) := by
    rw [List.flatMap_def, map_oracles_permutations, List.map_flatMap, List.flatMap_def]
  rw [hflat, rowClasses_eq]
  exact (flatMap_classesBy_perm _ _).map _

/-- A combination that a permutation answers for is a row. -/
theorem exists_row_of_mem_oracles {m : Model} {p : Permutation} (hp : p ∈ m.permutations) {o : Oracle} (ho : o ∈ p.oracles) :
    ∃ row, IsRow m.bindings row ∧ o = oracleOf m.bindings row := by
  have hmem := (flatMap_oracles_perm m).mem_iff.1 (List.mem_flatMap.2 ⟨p, hp, ho⟩)
  obtain ⟨row, hrow, rfl⟩ := List.mem_map.1 hmem
  exact ⟨row, (mem_rows_iff _ row).1 hrow, rfl⟩

/-- Every row is answered for by a permutation. -/
theorem exists_permutation_of_isRow {m : Model} {row : Row} (hr : IsRow m.bindings row) :
    ∃ p ∈ m.permutations, oracleOf m.bindings row ∈ p.oracles := by
  refine List.mem_flatMap.1 ((flatMap_oracles_perm m).mem_iff.2 ?_)
  exact List.mem_map_of_mem ((mem_rows_iff _ row).2 hr)

/-- Every permutation answers for a row. -/
theorem oracles_ne_nil {m : Model} {p : Permutation} (hp : p ∈ m.permutations) : p.oracles ≠ [] := by
  obtain ⟨c, hc, he⟩ := exists_class_of_mem hp
  rw [rowClasses_eq] at hc
  rw [he, ne_eq, List.map_eq_nil_iff]
  exact (members_of_mem_classesBy _ _ c hc).2

/-- A permutation that answers for a row answers for the rows that compile like it. -/
theorem mem_oracles_iff {m : Model} (h : m.WellFormed) {p : Permutation} (hp : p ∈ m.permutations) {row row' : Row}
    (ho : oracleOf m.bindings row ∈ p.oracles) (hr' : IsRow m.bindings row') :
    oracleOf m.bindings row' ∈ p.oracles ↔ RowsAlike m.bindings row row' := by
  obtain ⟨c, hc, he⟩ := exists_class_of_mem hp
  have hmem : ∀ r, oracleOf m.bindings r ∈ p.oracles ↔ r ∈ c.members := by
    intro r
    rw [he]
    exact List.mem_map_of_injective fun r r' heq => congrArg Oracle.values heq
  rw [hmem] at ho ⊢
  exact mem_class_iff h hc ho ((mem_rows_iff _ row').2 hr')

/-! ## Enumeration -/

/-- A list of permutations enumerates a list of properties by a table of rows. The table is the cross product of the values in
lexicographic order, as an odometer reads it off. Each permutation has its place as its id and answers, under all names in
their order, for a class of rows that compile alike, in the order of the table; the classes are in the order of their first
rows, and together they hold every row once. -/
structure IsEnumeration (bs : List Binding) (table : List Row) (ps : List Permutation) : Prop where
  complete : ∀ row, row ∈ table ↔ IsRow bs row
  ordered : table.Pairwise (RowBefore bs)
  turned : ∃ shown, Turns (sizes bs) (bs.map fun _ => 0) shown ∧ shown.map (readAt bs) = table.map some
  numbered : ∀ (i : Nat) (p : Permutation), ps[i]? = some p → p.id = i
  answering : ∀ p ∈ ps, p.oracles ≠ []
  named : ∀ p ∈ ps, ∀ o ∈ p.oracles, o.props = bs.map (·.name)
  sorted : ∀ p ∈ ps, (p.oracles.map (·.values)).Sublist table
  alike : ∀ p ∈ ps, ∀ o ∈ p.oracles, ∀ row ∈ table, row ∈ p.oracles.map (·.values) ↔ RowsAlike bs o.values row
  firsts : ps.Pairwise fun p q => ∀ o, p.oracles.head? = some o → ∀ o' ∈ q.oracles, RowBefore bs o.values o'.values
  once : (ps.flatMap (·.oracles)).Perm (table.map fun row => ⟨bs.map (·.name), row⟩)

/-- The permutations of a reachable model are the classes of its rows. -/
theorem permutations_isEnumeration {m : Model} (h : m.Reachable) :
    IsEnumeration m.bindings (rows m.bindings) m.permutations where
  complete := mem_rows_iff m.bindings
  ordered := rows_pairwise fun b hb => (h.wellFormed.valid b hb).distinct
  turned := turns_rows fun b hb => (h.wellFormed.valid b hb).nonempty
  numbered _ _ := id_of_getElem?
  answering p hp := by
    obtain ⟨c, hc, he⟩ := exists_class_of_mem hp
    rw [rowClasses_eq] at hc
    rw [he, ne_eq, List.map_eq_nil_iff]
    exact (members_of_mem_classesBy _ _ c hc).2
  named p hp o ho := by
    obtain ⟨c, _, he⟩ := exists_class_of_mem hp
    rw [he] at ho
    obtain ⟨row, _, rfl⟩ := List.mem_map.1 ho
    rfl
  sorted p hp := by
    obtain ⟨c, hc, he⟩ := exists_class_of_mem hp
    rw [rowClasses_eq] at hc
    rw [he, map_values_oracleOf, (members_of_mem_classesBy _ _ c hc).1]
    exact List.filter_sublist
  alike p hp o ho row hr := by
    obtain ⟨c, hc, he⟩ := exists_class_of_mem hp
    rw [he] at ho
    obtain ⟨row₀, hr₀, rfl⟩ := List.mem_map.1 ho
    rw [he, map_values_oracleOf]
    exact mem_class_iff h.wellFormed hc hr₀ hr
  firsts := pairwise_firsts h.wellFormed
  once := flatMap_oracles_perm m

/-- A model with a group of values that compile alike, a property whose values all do, and one with values of its own. -/
def browsers : Model where
  bindings := [
    ⟨"agent", ["ie6", "moz", "ie8"], [["ie8", "ie6"]], false, none⟩,
    ⟨"theme", ["light", "dark"], [], true, none⟩,
    ⟨"locale", ["en", "fr"], [], false, some "return lang;"⟩]
  configurations := [⟨"debug", "false"⟩]

theorem browsers_reachable : browsers.Reachable := by
  have h₀ : Model.Reachable .empty := .empty
  have h₁ := h₀.addBinding (b := ⟨"agent", ["ie6", "moz", "ie8"], [["ie8", "ie6"]], false, none⟩) rfl
  have h₂ := h₁.addConfiguration (c := ⟨"debug", "false"⟩) rfl
  have h₃ := h₂.addBinding (b := ⟨"theme", ["light", "dark"], [], true, none⟩) rfl
  exact h₃.addBinding (b := ⟨"locale", ["en", "fr"], [], false, some "return lang;"⟩) rfl

/-- Twelve rows of a model fall into four classes. -/
theorem browsers_isEnumeration :
    browsers.Reachable ∧ IsEnumeration browsers.bindings (rows browsers.bindings) browsers.permutations ∧
      (rows browsers.bindings).length = 12 ∧ browsers.permutations.map (·.oracles.length) = [4, 4, 2, 2] :=
  ⟨browsers_reachable, permutations_isEnumeration browsers_reachable, by decide, by decide⟩

end DeferredBinding
