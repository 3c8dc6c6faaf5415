import DeferredBinding.Proofs.Property.Invariant
import DeferredBinding.Property.Permutation
import Mathlib.Data.List.Forall2

/-!
# The rows of a list of properties

`rows` is the cross product of the values: it holds exactly the rows with a legal value for each property (`mem_rows_iff`), in
lexicographic order of the declarations (`rows_pairwise`). The same rows are read off an odometer with one wheel for each
property (`turns_rows`): it starts with every wheel at zero, moves the last wheel fastest, never shows an index that is out of
range, and comes to a stop after the last row.
-/

namespace DeferredBinding

/-- A row has a legal value for each property. -/
def IsRow (bs : List Binding) (row : Row) : Prop :=
  List.Forall₂ (fun b v => v ∈ b.values) bs row

/-- A row comes before another one when, at the first property in which they differ, its value is declared earlier. -/
def RowBefore : List Binding → Row → Row → Prop
  | b :: bs, v :: row, w :: row' => b.values.idxOf v < b.values.idxOf w ∨ (v = w ∧ RowBefore bs row row')
  | _, _, _ => False

/-- The rows are those with a legal value for each property. -/
theorem mem_rows_iff (bs : List Binding) (row : Row) : row ∈ rows bs ↔ IsRow bs row := by
  induction bs generalizing row with
  | nil => simp [rows, IsRow]
  | cons b bs ih =>
    simp only [rows, List.mem_flatMap, List.mem_map, ih]
    constructor
    · rintro ⟨v, hv, r, hr, rfl⟩
      exact List.Forall₂.cons hv hr
    · intro h
      cases h with
      | @cons _ v _ r hv hr => exact ⟨v, hv, r, hr, rfl⟩

/-- The elements of a list without repetition stand in the order of their places. -/
theorem pairwise_idxOf {l : List String} (h : l.Nodup) : l.Pairwise fun v w => l.idxOf v < l.idxOf w := by
  rw [List.pairwise_iff_getElem]
  intro i j hi hj hij
  rw [h.idxOf_getElem i hi, h.idxOf_getElem j hj]
  exact hij

/-- The rows stand in lexicographic order, the first property being the slowest. -/
theorem rows_pairwise {bs : List Binding} (h : ∀ b ∈ bs, b.values.Nodup) : (rows bs).Pairwise (RowBefore bs) := by
  induction bs with
  | nil => exact List.pairwise_singleton _ _
  | cons b bs ih =>
    have hrest := ih fun d hd => h d (List.mem_cons_of_mem _ hd)
    rw [rows, List.pairwise_flatMap]
    refine ⟨?_, ?_⟩
    · intro v _
      rw [List.pairwise_map]
      exact hrest.imp fun hr => Or.inr ⟨rfl, hr⟩
    · refine (pairwise_idxOf (h b (List.mem_cons_self ..))).imp fun {v w} hvw => ?_
      intro x hx y hy
      obtain ⟨r, _, rfl⟩ := List.mem_map.1 hx
      obtain ⟨r', _, rfl⟩ := List.mem_map.1 hy
      exact Or.inl hvw

/-- No row comes before itself. -/
theorem RowBefore.ne {bs : List Binding} {row row' : Row} (h : RowBefore bs row row') : row ≠ row' := by
  rintro rfl
  induction bs generalizing row with
  | nil => exact h
  | cons b bs ih =>
    cases row with
    | nil => exact h
    | cons v row =>
      rcases h with h | ⟨_, h⟩
      · exact Nat.lt_irrefl _ h
      · exact ih h

/-- No row is listed twice. -/
theorem rows_nodup {bs : List Binding} (h : ∀ b ∈ bs, b.values.Nodup) : (rows bs).Nodup :=
  (rows_pairwise h).imp RowBefore.ne

/-! ## The odometer -/

/-- Moves an odometer on by one, given how many places each wheel has. The last wheel moves; a wheel that comes round goes
back to zero and moves the one before it. There is no next position when all wheels come round. -/
def advance : List Nat → List Nat → Option (List Nat)
  | n :: sizes, i :: cursor =>
    match advance sizes cursor with
    | some next => some (i :: next)
    | none => if i + 1 < n then some ((i + 1) :: sizes.map fun _ => 0) else none
  | _, _ => none

/-- From a position on, an odometer shows the positions of a list and stops. -/
inductive Turns (sizes : List Nat) : List Nat → List (List Nat) → Prop where
  | stop {cursor : List Nat} : advance sizes cursor = none → Turns sizes cursor [cursor]
  | move {cursor next : List Nat} {shown : List (List Nat)} :
      advance sizes cursor = some next → Turns sizes next shown → Turns sizes cursor (cursor :: shown)

/-- The row at a position; there is none where an index is out of range. -/
def readAt : List Binding → List Nat → Option Row
  | [], [] => some []
  | b :: bs, i :: cursor => do
    let v ← b.values[i]?
    let row ← readAt bs cursor
    some (v :: row)
  | _, _ => none

/-- The number of values of each property. -/
def sizes (bs : List Binding) : List Nat :=
  bs.map (·.values.length)

/-- All positions of an odometer. -/
def positions : List Binding → List (List Nat)
  | [] => [[]]
  | b :: bs => (List.range b.values.length).flatMap fun i => (positions bs).map (i :: ·)

/-- One more wheel in front: while it stands still the others turn, and where they stop it moves on or stops too. -/
theorem Turns.cons_wheel {sizes cursor : List Nat} {shown : List (List Nat)} (h : Turns sizes cursor shown) (n i : Nat)
    (rest : List (List Nat))
    (hrest : if i + 1 < n then Turns (n :: sizes) ((i + 1) :: sizes.map fun _ => 0) rest else rest = []) :
    Turns (n :: sizes) (i :: cursor) (shown.map (i :: ·) ++ rest) := by
  induction h with
  | @stop cursor hstop =>
    split at hrest
    · rename_i hi
      exact Turns.move (by simp [advance, hstop, hi]) hrest
    · rename_i hi
      subst hrest
      exact Turns.stop (by simp [advance, hstop, hi])
  | @move cursor next shown hnext _ ih => exact Turns.move (by simp [advance, hnext]) ih

/-- A wheel in front of an odometer that turns from zero: from its place `i` on, it shows every turn of the others at each of
its remaining places. -/
theorem Turns.flatMap_wheel {sizes : List Nat} {shown : List (List Nat)} (h : Turns sizes (sizes.map fun _ => 0) shown)
    {n i : Nat} (hi : i < n) :
    Turns (n :: sizes) (i :: sizes.map fun _ => 0)
      ((List.range' i (n - i)).flatMap fun j => shown.map (j :: ·)) := by
  obtain ⟨k, rfl⟩ : ∃ k, n = i + k + 1 := ⟨n - i - 1, by omega⟩
  have hk : i + k + 1 - i = k + 1 := by omega
  rw [hk]
  clear hi hk
  -- on the number of places that are left
  induction k generalizing i with
  | zero =>
    have hlast : List.range' i (0 + 1) = [i] := rfl
    rw [hlast]
    simp only [List.flatMap_cons, List.flatMap_nil]
    exact h.cons_wheel _ i [] (by simp)
  | succ k ih =>
    rw [List.range'_succ, List.flatMap_cons]
    refine h.cons_wheel _ i _ ?_
    rw [if_pos (by omega)]
    have he : i + (k + 1) + 1 = (i + 1) + k + 1 := by omega
    rw [he]
    exact ih

/-- Where every property has a value, an odometer started at zero shows all positions and stops. -/
theorem turns_positions {bs : List Binding} (h : ∀ b ∈ bs, b.values ≠ []) :
    Turns (sizes bs) (bs.map fun _ => 0) (positions bs) := by
  induction bs with
  | nil => exact Turns.stop rfl
  | cons b bs ih =>
    have hrest := ih fun d hd => h d (List.mem_cons_of_mem _ hd)
    have hzero : (bs.map fun _ => 0) = (sizes bs).map fun _ => 0 := by
      rw [sizes, List.map_map]
      rfl
    have hpos : 0 < b.values.length := List.length_pos_iff.2 (h b (List.mem_cons_self ..))
    rw [hzero] at hrest
    have := hrest.flatMap_wheel hpos
    rw [Nat.sub_zero, ← List.range_eq_range'] at this
    rw [List.map_cons, hzero]
    exact this

/-- The rows are what is read at the positions; no index is out of range. -/
theorem map_readAt_positions (bs : List Binding) : (positions bs).map (readAt bs) = (rows bs).map some := by
  induction bs with
  | nil => rfl
  | cons b bs ih =>
    have hwheel : ∀ i < b.values.length, ((positions bs).map (i :: ·)).map (readAt (b :: bs)) =
        ((rows bs).map (b.values[i]?.getD "" :: ·)).map some := by
      intro i hi
      have hread : ∀ cursor, readAt (b :: bs) (i :: cursor) = (readAt bs cursor).map (b.values[i]?.getD "" :: ·) := by
        intro cursor
        simp only [readAt, List.getElem?_eq_getElem hi]
        cases readAt bs cursor <;> rfl
      rw [List.map_map, List.map_map]
      have hcomp : readAt (b :: bs) ∘ (i :: ·) = (Option.map (b.values[i]?.getD "" :: ·)) ∘ readAt bs := funext hread
      rw [hcomp, ← List.map_map, ih, List.map_map]
      rfl
    have hvalues : b.values = (List.range b.values.length).map fun i => b.values[i]?.getD "" := by
      refine List.ext_getElem (by simp) fun i h1 h2 => ?_
      simp [h1]
    simp only [positions, rows, List.map_flatMap]
    conv_rhs => rw [hvalues, List.flatMap_map]
    refine List.flatMap_congr fun i hi => ?_
    exact hwheel i (List.mem_range.1 hi)

/-- Where every property has a value, the odometer started at zero reads off the rows and stops. -/
theorem turns_rows {bs : List Binding} (h : ∀ b ∈ bs, b.values ≠ []) :
    ∃ shown, Turns (sizes bs) (bs.map fun _ => 0) shown ∧ shown.map (readAt bs) = (rows bs).map some :=
  ⟨positions bs, turns_positions h, map_readAt_positions bs⟩

end DeferredBinding
