import DeferredBinding.Proofs.Artifact.Set
import Mathlib.Order.Lattice.Nat

/-!
# A set of artifacts and its history

The calls on a set come down to a history of artifacts added and identities removed. `Recounts` says what a set has to do with
its history: an identity is held if it was added after its last removal, under it is the artifact added last, and the order of
the set is that of the first additions after the last removals. One event keeps this up (`Recounts.add`, `Recounts.remove`), so
every sequence of calls on the empty set does (`calls_recounted`).
-/

namespace DeferredBinding.ArtifactSet

/-! ## Calls and events -/

/-- A call on a set. -/
inductive Call where
  | put (a : Artifact)
  | addAll (l : List Artifact)
  | take (i : ArtifactId)

/-- What a call gives back, and the set after it. -/
def call (s : ArtifactSet) : Call → Option Artifact × ArtifactSet
  | .put a => s.put a
  | .addAll l => (none, s.addAll l)
  | .take i => s.take i

/-- The set after a sequence of calls. -/
def afterCalls (s : ArtifactSet) (calls : List Call) : ArtifactSet :=
  calls.foldl (fun s c => (s.call c).2) s

/-- The identity that a call replaces or removes; a call with a list gives nothing back. -/
def Call.target? : Call → Option ArtifactId
  | .put a => some a.identity
  | .addAll _ => none
  | .take i => some i

/-- One change of a set. -/
inductive Event where
  | added (a : Artifact)
  | removed (i : ArtifactId)
  deriving DecidableEq

/-- The changes that a call makes, in order. -/
def Call.events : Call → List Event
  | .put a => [.added a]
  | .addAll l => l.map .added
  | .take i => [.removed i]

/-- The changes that a sequence of calls makes, in order. -/
def history (calls : List Call) : List Event :=
  calls.flatMap Call.events

/-! ## What a history says -/

/-- The places of a history where an identity is added, later than every place where it is removed. -/
def additions (h : List Event) (i : ArtifactId) : Set Nat :=
  {n | (∃ a, h[n]? = some (.added a) ∧ a.identity = i) ∧ ∀ k, h[k]? = some (.removed i) → k < n}

/-- The artifact was added last under an identity, and that after its last removal. -/
def AddedLast (h : List Event) (i : ArtifactId) (a : Artifact) : Prop :=
  ∃ n, IsGreatest (additions h i) n ∧ h[n]? = some (.added a)

/-- One identity was first added before another, each counted from its last removal on. -/
def AddedBefore (h : List Event) (i j : ArtifactId) : Prop :=
  ∃ n k, IsLeast (additions h i) n ∧ IsLeast (additions h j) k ∧ n < k

/-- A set is what its history comes to. -/
structure Recounts (h : List Event) (s : ArtifactSet) : Prop where
  present : ∀ i, s.contains i = true ↔ (additions h i).Nonempty
  last : ∀ i a, s.get? i = some a ↔ AddedLast h i a
  order : s.identities.Pairwise (AddedBefore h)

/-! ## One more event -/

variable {h : List Event} {s : ArtifactSet}

/-- What stands at a place of a history with one more event. -/
theorem getElem?_concat_eq_some_iff (h : List Event) (e x : Event) (n : Nat) :
    (h ++ [e])[n]? = some x ↔ h[n]? = some x ∨ n = h.length ∧ e = x := by
  rcases Nat.lt_trichotomy n h.length with hn | hn | hn
  · have hne : n ≠ h.length := by omega
    simp [List.getElem?_append_left hn, hne]
  · subst hn
    simp
  · have hne : n ≠ h.length := by omega
    have hout : (h ++ [e]).length ≤ n := by
      simp only [List.length_append, List.length_singleton]
      omega
    simp [List.getElem?_eq_none hout, List.getElem?_eq_none (Nat.le_of_lt hn), hne]

/-- Additions stand inside the history. -/
theorem lt_length_of_mem_additions {i : ArtifactId} {n : Nat} (hn : n ∈ additions h i) : n < h.length := by
  obtain ⟨⟨a, ha, -⟩, -⟩ := hn
  exact (List.getElem?_eq_some_iff.1 ha).1

/-- An addition counts for the identity of its artifact, behind all that counted before. -/
theorem mem_additions_added (h : List Event) (a : Artifact) (i : ArtifactId) (n : Nat) :
    n ∈ additions (h ++ [.added a]) i ↔ n ∈ additions h i ∨ n = h.length ∧ a.identity = i := by
  simp only [additions, Set.mem_ofPred_eq, getElem?_concat_eq_some_iff]
  constructor
  · rintro ⟨⟨b, hb | ⟨rfl, hab⟩, hi⟩, hafter⟩
    · exact Or.inl ⟨⟨b, hb, hi⟩, fun k hk => hafter k (Or.inl hk)⟩
    · cases hab
      exact Or.inr ⟨rfl, hi⟩
  · rintro (⟨⟨b, hb, hi⟩, hafter⟩ | ⟨rfl, hi⟩)
    · refine ⟨⟨b, Or.inl hb, hi⟩, ?_⟩
      rintro k (hk | ⟨-, hk⟩)
      · exact hafter k hk
      · cases hk
    · refine ⟨⟨a, Or.inr ⟨rfl, rfl⟩, hi⟩, ?_⟩
      rintro k (hk | ⟨-, hk⟩)
      · exact (List.getElem?_eq_some_iff.1 hk).1
      · cases hk

/-- A removal takes away the additions of its identity and no others. -/
theorem mem_additions_removed (h : List Event) (i j : ArtifactId) (n : Nat) :
    n ∈ additions (h ++ [.removed j]) i ↔ n ∈ additions h i ∧ i ≠ j := by
  simp only [additions, Set.mem_ofPred_eq, getElem?_concat_eq_some_iff]
  constructor
  · rintro ⟨⟨b, hb | ⟨-, hb⟩, hi⟩, hafter⟩
    · refine ⟨⟨⟨b, hb, hi⟩, fun k hk => hafter k (Or.inl hk)⟩, ?_⟩
      -- the place would have to be behind the removal at the end
      rintro rfl
      have hlt := hafter h.length (Or.inr ⟨rfl, rfl⟩)
      have hin := (List.getElem?_eq_some_iff.1 hb).1
      omega
    · cases hb
  · rintro ⟨⟨⟨b, hb, hi⟩, hafter⟩, hne⟩
    refine ⟨⟨b, Or.inl hb, hi⟩, ?_⟩
    rintro k (hk | ⟨-, hk⟩)
    · exact hafter k hk
    · cases hk
      exact absurd rfl hne

/-- An addition to come is later than the first one. -/
theorem isLeast_added {i : ArtifactId} {n : Nat} (hn : IsLeast (additions h i) n) (a : Artifact) :
    IsLeast (additions (h ++ [.added a]) i) n := by
  refine ⟨(mem_additions_added h a i n).2 (Or.inl hn.1), ?_⟩
  intro k hk
  rcases (mem_additions_added h a i k).1 hk with hk | ⟨rfl, -⟩
  · exact hn.2 hk
  · exact Nat.le_of_lt (lt_length_of_mem_additions hn.1)

/-- The first addition of an identity that was not there is the one to come. -/
theorem isLeast_added_new {a : Artifact} (hnew : ¬(additions h a.identity).Nonempty) :
    IsLeast (additions (h ++ [.added a]) a.identity) h.length := by
  refine ⟨(mem_additions_added ..).2 (Or.inr ⟨rfl, rfl⟩), ?_⟩
  intro k hk
  rcases (mem_additions_added ..).1 hk with hk | ⟨rfl, -⟩
  · exact absurd ⟨k, hk⟩ hnew
  · exact Nat.le_refl _

theorem additions_removed_of_ne {i j : ArtifactId} (hne : i ≠ j) : additions (h ++ [.removed j]) i = additions h i := by
  ext n
  simp [mem_additions_removed, hne]

theorem additions_added_of_ne {i : ArtifactId} {a : Artifact} (hne : i ≠ a.identity) :
    additions (h ++ [.added a]) i = additions h i := by
  ext n
  simp [mem_additions_added, hne.symm]

/-- Where an event leaves the additions of an identity as they are, it leaves the artifact added last. -/
theorem addedLast_concat_iff {e : Event} {i : ArtifactId} (he : additions (h ++ [e]) i = additions h i) (a : Artifact) :
    AddedLast (h ++ [e]) i a ↔ AddedLast h i a := by
  unfold AddedLast
  rw [he]
  refine exists_congr fun n => and_congr_right fun hn => ?_
  have hlt := lt_length_of_mem_additions hn.1
  rw [List.getElem?_append_left hlt]

/-- What was added at the end was added last. -/
theorem addedLast_added_self_iff (h : List Event) (a b : Artifact) :
    AddedLast (h ++ [.added a]) a.identity b ↔ b = a := by
  have hgreatest : IsGreatest (additions (h ++ [.added a]) a.identity) h.length := by
    refine ⟨(mem_additions_added ..).2 (Or.inr ⟨rfl, rfl⟩), ?_⟩
    intro k hk
    have hlt := lt_length_of_mem_additions hk
    simp only [List.length_append, List.length_singleton] at hlt
    omega
  constructor
  · rintro ⟨n, hn, hb⟩
    obtain rfl := hn.unique hgreatest
    simpa using hb.symm
  · rintro rfl
    exact ⟨h.length, hgreatest, by simp⟩

/-! ## Steps -/

/-- What is found under an identity is the artifact of the set that has it. -/
theorem get?_eq_some_iff_mem (s : ArtifactSet) (i : ArtifactId) (a : Artifact) :
    s.get? i = some a ↔ a ∈ s.entries ∧ a.identity = i := by
  constructor
  · intro ha
    exact ⟨List.mem_of_find?_eq_some ha, by simpa using List.find?_some ha⟩
  · rintro ⟨ha, rfl⟩
    have hall := get?_addAll_of_mem (s := empty) s.distinct ha
    rwa [← ofList_entries s]

/-- A set contains the identities that it lists. -/
theorem contains_iff_mem_identities (s : ArtifactSet) (i : ArtifactId) : s.contains i = true ↔ i ∈ s.identities := by
  simp [contains, Option.isSome_iff_exists, get?_eq_some_iff_mem, identities]

/-- A set with one more artifact contains its identity as well. -/
theorem contains_add (s : ArtifactSet) (a : Artifact) (i : ArtifactId) :
    (s.add a).contains i = true ↔ s.contains i = true ∨ i = a.identity := by
  by_cases hi : i = a.identity
  · simp [contains, hi]
  · simp [contains, hi]

/-- A set with an identity removed contains the others. -/
theorem contains_remove (s : ArtifactSet) (i j : ArtifactId) :
    (s.remove i).contains j = true ↔ s.contains j = true ∧ j ≠ i := by
  by_cases hj : j = i
  · simp [contains, hj]
  · simp [contains, hj]

/-- The identities that are left. -/
theorem identities_remove (s : ArtifactSet) (i : ArtifactId) :
    (s.remove i).identities = s.identities.filter fun j => j != i := by
  simp only [identities, remove, List.filter_map]
  rfl

/-- A set goes on as its history does when an artifact is added. -/
theorem Recounts.add (hr : Recounts h s) (a : Artifact) : Recounts (h ++ [.added a]) (s.add a) := by
  refine ⟨?_, ?_, ?_⟩
  · intro i
    rw [contains_add, hr.present]
    simp only [Set.Nonempty, mem_additions_added, exists_or, exists_eq_left, eq_comm]
  · intro i b
    rw [get?_add]
    by_cases hi : i = a.identity
    · rw [if_pos hi, hi, addedLast_added_self_iff, Option.some.injEq, eq_comm]
    · rw [if_neg hi, hr.last, addedLast_concat_iff (additions_added_of_ne hi)]
  · rw [identities_add, List.pairwise_append]
    refine ⟨?_, (List.pairwise_singleton _ _).filter _, ?_⟩
    · refine hr.order.imp ?_
      rintro i j ⟨n, k, hn, hk, hlt⟩
      exact ⟨n, k, isLeast_added hn a, isLeast_added hk a, hlt⟩
    · -- an identity that is new is added at the end, behind the first addition of any other
      intro i hi j hj
      simp only [List.mem_filter, List.mem_singleton, decide_eq_true_eq] at hj
      obtain ⟨rfl, hnew⟩ := hj
      rw [← contains_iff_mem_identities, hr.present] at hi hnew
      have hfirst : IsLeast (additions h i) (sInf (additions h i)) := ⟨Nat.sInf_mem hi, fun _ hk => Nat.sInf_le hk⟩
      exact ⟨_, _, isLeast_added hfirst a, isLeast_added_new hnew, lt_length_of_mem_additions hfirst.1⟩

/-- A set goes on as its history does when an identity is removed. -/
theorem Recounts.remove (hr : Recounts h s) (i : ArtifactId) : Recounts (h ++ [.removed i]) (s.remove i) := by
  refine ⟨?_, ?_, ?_⟩
  · intro j
    rw [contains_remove, hr.present]
    simp [Set.Nonempty, mem_additions_removed]
  · intro j b
    rw [get?_remove]
    by_cases hj : j = i
    · subst hj
      rw [if_pos rfl]
      constructor
      · intro hget
        cases hget
      · rintro ⟨n, hn, -⟩
        exact absurd rfl ((mem_additions_removed ..).1 hn.1).2
    · rw [if_neg hj, hr.last, addedLast_concat_iff (additions_removed_of_ne hj)]
  · rw [identities_remove]
    refine (hr.order.filter _).imp_of_mem ?_
    rintro j k hj hk ⟨n, p, hn, hp, hlt⟩
    simp only [List.mem_filter, bne_iff_ne] at hj hk
    refine ⟨n, p, ?_, ?_, hlt⟩
    · rw [additions_removed_of_ne hj.2]
      exact hn
    · rw [additions_removed_of_ne hk.2]
      exact hp

/-! ## Runs -/

/-- A set goes on as its history does when artifacts are added one after another. -/
theorem Recounts.addAll (hr : Recounts h s) (l : List Artifact) : Recounts (h ++ l.map .added) (s.addAll l) := by
  induction l generalizing h s with
  | nil => simpa [ArtifactSet.addAll] using hr
  | cons a l ih =>
    have hrest := ih (hr.add a)
    rw [List.append_assoc] at hrest
    exact hrest

/-- A set goes on as its history does with every call. -/
theorem Recounts.call (hr : Recounts h s) (c : Call) : Recounts (h ++ c.events) (s.call c).2 := by
  cases c with
  | put a => exact hr.add a
  | addAll l => exact hr.addAll l
  | take i => exact hr.remove i

/-- A set goes on as its history does through all calls. -/
theorem Recounts.afterCalls (hr : Recounts h s) (calls : List Call) :
    Recounts (h ++ history calls) (s.afterCalls calls) := by
  induction calls generalizing h s with
  | nil => simpa [history, ArtifactSet.afterCalls] using hr
  | cons c calls ih =>
    have hrest := ih (hr.call c)
    rw [List.append_assoc] at hrest
    exact hrest

/-- The empty history comes to the empty set. -/
theorem recounts_empty : Recounts [] empty := by
  have hnone : ∀ i, additions [] i = ∅ := by
    intro i
    simp [additions]
  refine ⟨?_, ?_, List.Pairwise.nil⟩
  · intro i
    simp [hnone, contains, get?, empty]
  · intro i a
    constructor
    · intro hget
      simp [get?, empty] at hget
    · rintro ⟨n, hn, -⟩
      rw [hnone] at hn
      exact absurd hn.1 (Set.notMem_empty n)

/-- After any calls on the empty set, every artifact is held once and under its own identity, the set is what its history comes
to, the next call gives back exactly what was held under the identity that it replaces or removes, and the set is made again
from what it lists and left as it is by adding that to it. -/
theorem calls_recounted (calls : List Call) :
    (empty.afterCalls calls).identities.Nodup ∧
      (∀ i a, (empty.afterCalls calls).get? i = some a ↔ a ∈ (empty.afterCalls calls).entries ∧ a.identity = i) ∧
      Recounts (history calls) (empty.afterCalls calls) ∧
      (∀ c a, ((empty.afterCalls calls).call c).1 = some a ↔ ∃ i, c.target? = some i ∧ AddedLast (history calls) i a) ∧
      ofList (empty.afterCalls calls).entries = empty.afterCalls calls ∧
      (empty.afterCalls calls).addAll (empty.afterCalls calls).entries = empty.afterCalls calls := by
  have hr : Recounts (history calls) (empty.afterCalls calls) := recounts_empty.afterCalls calls
  generalize empty.afterCalls calls = s at hr
  refine ⟨s.distinct, s.get?_eq_some_iff_mem, hr, ?_, s.ofList_entries, ?_⟩
  · intro c a
    cases c with
    | put b => simp [call, put, Call.target?, hr.last]
    | addAll l => simp [call, Call.target?]
    | take i => simp [call, take, Call.target?, hr.last]
  · refine addAll_eq_self ?_
    intro a ha
    exact (s.get?_eq_some_iff_mem a.identity a).2 ⟨ha, rfl⟩

end DeferredBinding.ArtifactSet
