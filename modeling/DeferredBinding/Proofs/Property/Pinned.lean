import DeferredBinding.Proofs.Lists
import DeferredBinding.Proofs.Property.Enumeration

/-!
# Pins and permutations

Rows that compile alike make a block. The blocks of a list of properties are products: a group of values of the first property
in front of a block of rows of the others, in lexicographic order (`blocks_cons`). A pin leaves one value of one factor, so it
keeps the blocks with rows of that value, in their order, and these rows of each (`blocks_narrowFirst`). The permutations of the
narrowed model are therefore those of the full model, less what the pin rules out (`permutations_pin`).
-/

namespace DeferredBinding

/-! ## Products -/

/-- The rows with a value of a list in front of a row of another. -/
def prepend (vs : List String) (rs : List Row) : List Row :=
  vs.flatMap fun v => rs.map (v :: ·)

theorem prepend_cons (v : String) (vs : List String) (rs : List Row) :
    prepend (v :: vs) rs = rs.map (v :: ·) ++ prepend vs rs :=
  List.flatMap_cons

theorem prepend_eq_nil_iff (vs : List String) (rs : List Row) : prepend vs rs = [] ↔ vs = [] ∨ rs = [] := by
  cases vs with
  | nil => simp [prepend]
  | cons v vs => simp +contextual [prepend]

/-- A condition on the first value and one on the rest select from the two factors. -/
theorem filter_prepend {P : Row → Bool} {p : String → Bool} {q : Row → Bool} (vs : List String) {rs : List Row}
    (h : ∀ v, ∀ r ∈ rs, P (v :: r) = (p v && q r)) : (prepend vs rs).filter P = prepend (vs.filter p) (rs.filter q) := by
  induction vs with
  | nil => rfl
  | cons v vs ih =>
    have hhead : (rs.map (v :: ·)).filter P = (rs.filter fun r => p v && q r).map (v :: ·) := by
      rw [List.filter_map]
      exact congrArg (List.map (v :: ·)) (List.filter_congr (h v))
    rw [prepend_cons, List.filter_append, hhead, ih]
    cases hv : p v with
    | true => simp only [Bool.true_and, List.filter_cons_of_pos hv, prepend_cons]
    | false => simp [hv]

/-- First occurrences in a product are the product of first occurrences. -/
theorem eraseDups_prepend (vs : List String) (rs : List Row) :
    (prepend vs rs).eraseDups = prepend vs.eraseDups rs.eraseDups := by
  match vs with
  | [] => rfl
  | v :: vs =>
    -- behind the rows with the first value, exactly those with other values are new
    have hrest : (prepend vs rs).removeAll (rs.map (v :: ·)) = prepend (vs.filter fun w => !w == v) rs := by
      have hnew : ∀ w, ∀ r ∈ rs, (!(rs.map (v :: ·)).elem (w :: r)) = (!w == v && true) := by
        intro w r hr
        by_cases hw : w = v
        · simp [hw, hr]
        · simp [hw, Ne.symm hw]
      rw [List.removeAll, filter_prepend vs hnew, List.filter_true]
    rw [prepend_cons, List.eraseDups_append, hrest, eraseDups_prepend, eraseDups_map List.cons_injective,
      List.eraseDups_cons, prepend_cons]
termination_by vs.length
decreasing_by exact Nat.lt_succ_of_le (List.length_filter_le ..)

/-! ## Blocks -/

/-- The values of a property that have one representative, in the order of their first values. -/
def Binding.groups (b : Binding) : List (List String) :=
  (b.values.map b.representative).eraseDups.map fun k => b.values.filter fun v => b.representative v = k

/-- The rows of each class. -/
def blocks (bs : List Binding) : List (List Row) :=
  (rowClasses bs).map (·.members)

/-- The classes of a list of rows, found by their keys: one for each key, where it first comes up. -/
theorem map_members_classesBy (key : Row → Row) (l : List Row) :
    (classesBy key l).map (·.members) = (l.map key).eraseDups.map fun k => l.filter fun r => key r = k := by
  fun_induction classesBy key l with
  | case1 => rfl
  | case2 row rest ih =>
    have hkeys : (otherKeys key row rest).map key = (rest.map key).filter fun k => !k == key row := by
      rw [List.filter_map, otherKeys]
      refine congrArg (List.map key) (List.filter_congr fun r _ => ?_)
      by_cases hr : key r = key row
      · simp [hr]
      · simp [hr]
    rw [List.map_cons, ih, hkeys, List.map_cons, List.eraseDups_cons, List.map_cons]
    refine congrArg₂ List.cons (by simp) (List.map_congr_left fun k hk => ?_)
    -- a later key is not that of the first row, so its rows are all among the others
    have hne : k ≠ key row := by
      have := List.mem_eraseDups.1 hk
      simpa using (List.mem_filter.1 this).2
    rw [otherKeys, List.filter_filter, List.filter_cons_of_neg (by simpa using hne.symm)]
    refine List.filter_congr fun r _ => ?_
    by_cases hr : key r = k
    · simp [hr, hne]
    · simp [hr]

/-- The blocks of a list of properties are groups of values of the first one in front of blocks of the others. -/
theorem blocks_cons (b : Binding) (bs : List Binding) :
    blocks (b :: bs) = b.groups.flatMap fun g => (blocks bs).map (prepend g) := by
  have hkeys : (rows (b :: bs)).map (representatives (b :: bs)) =
      prepend (b.values.map b.representative) ((rows bs).map (representatives bs)) := by
    simp only [rows, prepend, List.map_flatMap, List.flatMap_map, List.map_map]
    rfl
  have hblock : ∀ k ks, ((rows (b :: bs)).filter fun r => representatives (b :: bs) r = k :: ks) =
      prepend (b.values.filter fun v => b.representative v = k) ((rows bs).filter fun r => representatives bs r = ks) := by
    intro k ks
    refine filter_prepend b.values fun v r _ => ?_
    rw [← Bool.decide_and]
    exact decide_eq_decide.2 List.cons_eq_cons
  rw [blocks, blocks, rowClasses_eq, rowClasses_eq, map_members_classesBy, map_members_classesBy, hkeys, eraseDups_prepend]
  simp only [Binding.groups, prepend, List.map_flatMap, List.flatMap_map, List.map_map, Function.comp_def]
  simp only [hblock, prepend]

theorem ne_nil_of_mem_groups {b : Binding} {g : List String} (h : g ∈ b.groups) : g ≠ [] := by
  obtain ⟨k, hk, rfl⟩ := List.mem_map.1 h
  obtain ⟨v, hv, rfl⟩ := List.mem_map.1 (List.mem_eraseDups.1 hk)
  exact List.ne_nil_of_mem (List.mem_filter.2 ⟨hv, decide_eq_true rfl⟩)

theorem ne_nil_of_mem_blocks {bs : List Binding} {c : List Row} (h : c ∈ blocks bs) : c ≠ [] := by
  obtain ⟨c, hc, rfl⟩ := List.mem_map.1 h
  rw [rowClasses_eq] at hc
  exact (members_of_mem_classesBy _ _ c hc).2

/-! ## What a condition leaves -/

/-- What satisfies a condition in each of some lists, without the lists of which nothing is left. -/
def restrict {α : Type} (P : α → Bool) (ls : List (List α)) : List (List α) :=
  (ls.map (·.filter P)).filter fun l => !l.isEmpty

theorem restrict_append {α : Type} (P : α → Bool) (ls ls' : List (List α)) :
    restrict P (ls ++ ls') = restrict P ls ++ restrict P ls' := by
  simp [restrict]

/-- A condition on what a function gives restricts the lists that the function is applied to. -/
theorem restrict_map {α β : Type} (P : β → Bool) (f : α → β) (ls : List (List α)) :
    restrict P (ls.map (·.map f)) = (restrict (P ∘ f) ls).map (·.map f) := by
  simp [restrict, List.filter_map, Function.comp_def]

/-- Lists that are not empty are kept by the condition that holds of everything. -/
theorem restrict_true {α : Type} {ls : List (List α)} (h : ∀ l ∈ ls, l ≠ []) : restrict (fun _ => true) ls = ls := by
  simp only [restrict, List.filter_true, List.map_id']
  exact List.filter_eq_self.2 fun l hl => by simpa using h l hl

/-- A condition on the first value and one on the rest, for the blocks behind one group: they are restricted where a value of
the group is left. -/
theorem restrict_map_prepend {P : Row → Bool} {p : String → Bool} {q : Row → Bool} (h : ∀ v r, P (v :: r) = (p v && q r))
    (g : List String) (cs : List (List Row)) :
    restrict P (cs.map (prepend g)) = if g.filter p = [] then [] else (restrict q cs).map (prepend (g.filter p)) := by
  have hfilter : (cs.map (prepend g)).map (·.filter P) = (cs.map (·.filter q)).map (prepend (g.filter p)) := by
    rw [List.map_map, List.map_map]
    exact List.map_congr_left fun c _ => filter_prepend g fun v r _ => h v r
  rw [restrict, hfilter, List.filter_map]
  split
  · rename_i hg
    rw [hg]
    simp [prepend]
  · rename_i hg
    refine congrArg (List.map _) (List.filter_congr fun c _ => ?_)
    rw [Function.comp_apply, Bool.eq_iff_iff]
    simp [prepend_eq_nil_iff, hg]

/-- A condition on the first value and one on the rest restrict the factors of a product. -/
theorem restrict_product {P : Row → Bool} {p : String → Bool} {q : Row → Bool} (h : ∀ v r, P (v :: r) = (p v && q r))
    (gs : List (List String)) (cs : List (List Row)) :
    restrict P (gs.flatMap fun g => cs.map (prepend g)) =
      (restrict p gs).flatMap fun g => (restrict q cs).map (prepend g) := by
  induction gs with
  | nil => rfl
  | cons g gs ih =>
    have hgs : restrict p (g :: gs) = restrict p [g] ++ restrict p gs := restrict_append p [g] gs
    rw [List.flatMap_cons, restrict_append, ih, restrict_map_prepend h, hgs, List.flatMap_append]
    split
    · rename_i hg
      simp [restrict, hg]
    · rename_i hg
      simp [restrict, hg]

/-- One group has a given value. -/
theorem restrict_groups {b : Binding} (hd : b.values.Nodup) {value : String} (hv : value ∈ b.values) :
    restrict (fun v => v = value) b.groups = [[value]] := by
  have honce : ∀ {l : List String} {a : String}, l.Nodup → a ∈ l → (l.filter fun x => x = a) = [a] := by
    intro l a hl ha
    rw [List.filter_eq, List.count_eq_one_of_mem hl ha]
    rfl
  have hgroup : ∀ k, ((b.values.filter fun v => b.representative v = k).filter fun v => v = value) =
      if k = b.representative value then [value] else [] := by
    intro k
    rw [List.filter_filter]
    split
    · rename_i hk
      rw [← honce hd hv]
      refine List.filter_congr fun v _ => ?_
      by_cases hvv : v = value
      · simp [hvv, hk]
      · simp [hvv]
    · rename_i hk
      refine List.filter_eq_nil_iff.2 fun v _ => ?_
      by_cases hvv : v = value
      · simp [hvv, Ne.symm hk]
      · simp [hvv]
  have hkey : b.representative value ∈ (b.values.map b.representative).eraseDups :=
    List.mem_eraseDups.2 (List.mem_map_of_mem hv)
  have hkept : ((b.values.map b.representative).eraseDups.filter fun k =>
      !((b.values.filter fun v => b.representative v = k).filter fun v => v = value).isEmpty) = [b.representative value] := by
    rw [← honce (nodup_eraseDups _) hkey]
    refine List.filter_congr fun k _ => ?_
    by_cases hk : k = b.representative value
    · simp [hgroup, hk]
    · simp [hgroup, hk]
  rw [restrict, Binding.groups, List.map_map, List.filter_map]
  simp only [Function.comp_def]
  rw [hkept, List.map_singleton, hgroup, if_pos rfl]

/-! ## Pins -/

theorem groups_narrowed (b : Binding) (value : String) : (b.narrowed value).groups = [[value]] := by
  have hrep : (b.narrowed value).representative value = value := rfl
  have hvalues : (b.narrowed value).values = [value] := rfl
  simp [Binding.groups, hvalues, List.eraseDups_cons]

/-- The value of a property in a row, with one more property in front. -/
theorem valueOf?_oracleOf_cons (b : Binding) (bs : List Binding) (v : String) (row : Row) (name : String) :
    (oracleOf (b :: bs) (v :: row)).valueOf? name =
      if b.name = name then some v else (oracleOf bs row).valueOf? name := by
  simp only [oracleOf, Oracle.valueOf?, Oracle.pairs, List.map_cons, List.zip_cons_cons, List.lookup_cons]
  by_cases hn : b.name = name
  · simp [hn]
  · have hne : (name == b.name) = false := beq_eq_false_iff_ne.2 (Ne.symm hn)
    simp [hn, hne]

/-- The blocks after a pin: those with rows of the pinned value, and of each these rows. -/
theorem blocks_narrowFirst {bs : List Binding} (hd : ∀ b ∈ bs, b.values.Nodup) {name value : String}
    (hv : ∃ b, bs.find? (·.name == name) = some b ∧ value ∈ b.values) :
    blocks (Model.narrowFirst name value bs) =
      restrict (fun row => (oracleOf bs row).valueOf? name = some value) (blocks bs) := by
  induction bs with
  | nil =>
    obtain ⟨b, hb, -⟩ := hv
    nomatch hb
  | cons b bs ih =>
    obtain ⟨b', hb, hmem⟩ := hv
    have hrest := ih fun d hd' => hd d (List.mem_cons_of_mem _ hd')
    rw [Model.narrowFirst, blocks_cons b bs]
    by_cases hn : b.name = name
    · -- the pinned property is in front: one group is left, and of it one value
      have hcond : ∀ v row, decide ((oracleOf (b :: bs) (v :: row)).valueOf? name = some value) = (decide (v = value) && true) := by
        intro v row
        rw [valueOf?_oracleOf_cons, if_pos hn]
        simp
      have hvb : value ∈ b.values := by
        rw [List.find?_cons_of_pos (by simpa using hn)] at hb
        exact Option.some.inj hb ▸ hmem
      rw [if_pos hn, blocks_cons, groups_narrowed, restrict_product hcond, restrict_groups (hd b List.mem_cons_self) hvb,
        restrict_true fun c hc => ne_nil_of_mem_blocks hc]
    · -- the pinned property is behind: every group stays in front of what is left
      have hcond : ∀ v row, decide ((oracleOf (b :: bs) (v :: row)).valueOf? name = some value) =
          (true && decide ((oracleOf bs row).valueOf? name = some value)) := by
        intro v row
        rw [valueOf?_oracleOf_cons, if_neg hn, Bool.true_and]
      have hvs : ∃ b, bs.find? (·.name == name) = some b ∧ value ∈ b.values := by
        rw [List.find?_cons_of_neg (by simpa using hn)] at hb
        exact ⟨b', hb, hmem⟩
      rw [if_neg hn, blocks_cons, hrest hvs, restrict_product hcond, restrict_true fun g hg => ne_nil_of_mem_groups hg]

/-! ## Permutations -/

/-- A permutation for the combinations with a given value only. -/
def Permutation.restricted (name value : String) (p : Permutation) : Permutation :=
  { p with oracles := p.oracles.filter fun o => o.valueOf? name = some value }

/-- Permutations numbered from zero. -/
def renumbered (ps : List Permutation) : List Permutation :=
  ps.zipIdx.map fun (p, i) => { p with id := i }

/-- What numbered permutations are depends on their oracles only. -/
theorem renumbered_congr {ps qs : List Permutation} (h : ps.map (·.oracles) = qs.map (·.oracles)) :
    renumbered ps = renumbered qs := by
  have horacles : ∀ l : List Permutation, renumbered l = (l.map (·.oracles)).zipIdx.map fun x => ⟨x.2, x.1⟩ := by
    intro l
    rw [List.zipIdx_map, List.map_map]
    rfl
  rw [horacles, horacles, h]

/-- The permutations of a model are numbered. -/
theorem renumbered_permutations (m : Model) : renumbered m.permutations = m.permutations := by
  refine List.ext_getElem? fun i => ?_
  rw [renumbered, List.getElem?_map, List.getElem?_zipIdx]
  cases hp : m.permutations[i]? with
  | none => rfl
  | some p =>
    have hid := id_of_getElem? hp
    simp [← hid]

theorem map_oracles_eq_blocks (m : Model) :
    m.permutations.map (·.oracles) = (blocks m.bindings).map (·.map (oracleOf m.bindings)) := by
  rw [map_oracles_permutations, blocks, List.map_map]
  rfl

/-- The oracles of the permutations that are left with a given value. -/
theorem map_oracles_restricted (name value : String) (ps : List Permutation) :
    ((ps.map (Permutation.restricted name value)).filter fun p => !p.oracles.isEmpty).map (·.oracles) =
      restrict (fun o => o.valueOf? name = some value) (ps.map (·.oracles)) := by
  rw [restrict, List.map_map, List.filter_map, List.filter_map, List.map_map]
  rfl

/-- The permutations of a model after a pin of a binding property to a legal value: of each permutation the combinations with
this value, without the permutations that have none, numbered anew in the same order. -/
theorem permutations_pin {m : Model} (h : m.Reachable) {b : Binding} (hb : b ∈ m.bindings) {value : String}
    (hv : value ∈ b.values) :
    ∃ m', m.pin b.name value = .ok m' ∧
      m'.permutations =
        renumbered ((m.permutations.map (Permutation.restricted b.name value)).filter fun p => !p.oracles.isEmpty) := by
  have hwell := h.wellFormed
  have hnames : (m.bindings.map (·.name)).Nodup := (List.nodup_append.1 hwell.distinct).1
  have hfind : m.bindings.find? (·.name == b.name) = some b := (hwell.binding?_eq_some_iff b.name b).2 ⟨hb, rfl⟩
  have hlegal : m.Legal b.name value := Or.inl ⟨b, hb, rfl, hv⟩
  refine ⟨m.narrow b.name value, (hwell.pin_eq_ok_iff _ _ _).2 ⟨hlegal, rfl⟩, ?_⟩
  have hbindings : (m.narrow b.name value).bindings = Model.narrowFirst b.name value m.bindings :=
    (Model.narrowFirst_eq_map hnames b.name value).symm
  have hsame : (m.narrow b.name value).bindings.map (·.name) = m.bindings.map (·.name) :=
    List.append_cancel_right (m.names_narrow b.name value)
  have horacle : oracleOf (m.narrow b.name value).bindings = oracleOf m.bindings := by
    funext row
    rw [oracleOf, oracleOf, hsame]
  rw [← renumbered_permutations (m.narrow b.name value)]
  refine renumbered_congr ?_
  rw [map_oracles_restricted, map_oracles_eq_blocks, map_oracles_eq_blocks, restrict_map, horacle, hbindings,
    blocks_narrowFirst (fun d hd => (hwell.valid d hd).distinct) ⟨b, hfind, hv⟩]
  rfl

/-- A value that compiles like one that is declared before it: two of four permutations are left, with half of their
combinations. -/
theorem browsers_permutations_pin :
    browsers.Reachable ∧ ∃ m', browsers.pin "agent" "ie8" = .ok m' ∧
      m'.permutations = renumbered
        ((browsers.permutations.map (Permutation.restricted "agent" "ie8")).filter fun p => !p.oracles.isEmpty) ∧
      m'.permutations.map (·.oracles.length) = [2, 2] := by
  have hagent : ⟨"agent", ["ie6", "moz", "ie8"], [["ie8", "ie6"]], false, none⟩ ∈ browsers.bindings := List.mem_cons_self
  have hvalue : "ie8" ∈ ["ie6", "moz", "ie8"] := by decide
  obtain ⟨m', hpin, heq⟩ := permutations_pin browsers_reachable hagent hvalue
  refine ⟨browsers_reachable, m', hpin, heq, ?_⟩
  rw [heq]
  decide

end DeferredBinding
