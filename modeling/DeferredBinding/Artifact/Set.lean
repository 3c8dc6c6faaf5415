import DeferredBinding.Artifact.Basic

/-!
Sets of artifacts. A set holds one artifact for an identity, in the order in which the identities came in; an artifact
with an identity that is there takes the place of the old one.
-/
namespace DeferredBinding

/-- A list of artifacts with different identities. -/
structure ArtifactSet where
  entries : List Artifact
  distinct : (entries.map Artifact.identity).Nodup

namespace ArtifactSet

/-- The list with an artifact in the place of the one with its identity, or at the end. -/
def place (a : Artifact) : List Artifact → List Artifact
  | [] => [a]
  | b :: rest => if b.identity = a.identity then a :: rest else b :: place a rest

/-- Placing an artifact keeps the identities, with a new one at the end. -/
theorem identities_place (a : Artifact) (l : List Artifact) :
    (place a l).map Artifact.identity =
      if a.identity ∈ l.map Artifact.identity then l.map Artifact.identity
      else l.map Artifact.identity ++ [a.identity] := by
  induction l with
  | nil => simp [place]
  | cons b rest ih =>
    by_cases h : b.identity = a.identity
    · simp [place, h]
    · have h' : a.identity ≠ b.identity := fun e => h e.symm
      simp only [place, h, if_false, List.map_cons, ih, List.mem_cons, h', false_or]
      split <;> simp

/-- Placing an artifact keeps the identities different. -/
theorem nodup_place {a : Artifact} {l : List Artifact} (h : (l.map Artifact.identity).Nodup) :
    ((place a l).map Artifact.identity).Nodup := by
  rw [identities_place]
  split
  · exact h
  · rename_i hn
    refine List.nodup_append.2 ⟨h, by simp, ?_⟩
    intro x hx y hy
    rw [List.mem_singleton] at hy
    subst hy
    exact fun e => hn (e ▸ hx)

/-- Looking up an identity after a placement finds the placed artifact under its own identity and the old one under any
other. -/
theorem find?_place (a : Artifact) (i : ArtifactId) (l : List Artifact) :
    (place a l).find? (fun b => b.identity == i) =
      if i = a.identity then some a else l.find? fun b => b.identity == i := by
  induction l with
  | nil =>
    by_cases h : i = a.identity
    · simp [place, h]
    · have h' : ¬a.identity = i := fun e => h e.symm
      simp [place, h, h']
  | cons b rest ih =>
    by_cases hb : b.identity = a.identity
    · by_cases h : i = a.identity
      · simp [place, hb, h]
      · have h' : ¬a.identity = i := fun e => h e.symm
        simp [place, hb, h, h']
    · by_cases h : b.identity = i
      · have h' : ¬i = a.identity := fun e => hb (h.trans e)
        simp [place, h, h']
      · simp [place, hb, h, ih]

/-- The set without artifacts. -/
def empty : ArtifactSet :=
  ⟨[], List.nodup_nil⟩

/-- The set with an artifact added, or put in the place of the one with its identity. -/
def add (s : ArtifactSet) (a : Artifact) : ArtifactSet :=
  ⟨place a s.entries, nodup_place s.distinct⟩

/-- The set with a list of artifacts added in order. -/
def addAll (s : ArtifactSet) (l : List Artifact) : ArtifactSet :=
  l.foldl add s

/-- The set of a list of artifacts, a later one winning over an earlier one in its place. -/
def ofList (l : List Artifact) : ArtifactSet :=
  empty.addAll l

/-- The artifact with an identity. -/
def get? (s : ArtifactSet) (i : ArtifactId) : Option Artifact :=
  s.entries.find? fun a => a.identity == i

@[simp] theorem get?_add (s : ArtifactSet) (a : Artifact) (i : ArtifactId) :
    (s.add a).get? i = if i = a.identity then some a else s.get? i :=
  find?_place a i s.entries

/-- Whether there is an artifact with an identity. -/
def contains (s : ArtifactSet) (i : ArtifactId) : Bool :=
  (s.get? i).isSome

/-- The set without the artifact with an identity. -/
def remove (s : ArtifactSet) (i : ArtifactId) : ArtifactSet :=
  ⟨s.entries.filter fun a => a.identity != i, (List.filter_sublist.map Artifact.identity).nodup s.distinct⟩

@[simp] theorem get?_remove (s : ArtifactSet) (i j : ArtifactId) :
    (s.remove i).get? j = if j = i then none else s.get? j := by
  simp only [get?, remove, List.find?_filter]
  by_cases h : j = i
  · subst h
    simp
  · rw [if_neg h]
    congr 1
    funext a
    by_cases ha : a.identity = j
    · simp [ha, h]
    · simp [ha]

/-- Adds an artifact and gives the one it replaces, if any. -/
def put (s : ArtifactSet) (a : Artifact) : Option Artifact × ArtifactSet :=
  (s.get? a.identity, s.add a)

/-- Removes the artifact with an identity and gives it, if there is one. -/
def take (s : ArtifactSet) (i : ArtifactId) : Option Artifact × ArtifactSet :=
  (s.get? i, s.remove i)

/-- The identities in order. -/
def identities (s : ArtifactSet) : List ArtifactId :=
  s.entries.map Artifact.identity

/-- The number of artifacts. -/
def size (s : ArtifactSet) : Nat :=
  s.entries.length

/-- The files in order. -/
def emitted (s : ArtifactSet) : List Emitted :=
  s.entries.filterMap Artifact.emitted?

/-- The results in order. -/
def compilations (s : ArtifactSet) : List CompiledResult :=
  s.entries.filterMap Artifact.compilation?

/-- The artifacts of a kind in order. -/
def ofKind (s : ArtifactSet) (k : ArtifactKind) : List Artifact :=
  s.entries.filter fun a => a.kind == k

/-- The identities sorted: files before results, and keys in order. -/
def sortedIdentities (s : ArtifactSet) : List ArtifactId :=
  s.identities.mergeSort fun a b => !b.before a

/-- Sets are equal when they list the same artifacts in the same order. -/
theorem ext {s t : ArtifactSet} (h : s.entries = t.entries) : s = t := by
  cases s
  cases t
  cases h
  rfl

/-- Equality of sets is decided by their lists. -/
instance : DecidableEq ArtifactSet := fun s t =>
  if h : s.entries = t.entries then .isTrue (ext h)
  else .isFalse fun he => h (he ▸ rfl)

end ArtifactSet

end DeferredBinding
