import DeferredBinding.Proofs.Deploy.Staging
import DeferredBinding.Proofs.Disk.Files
import DeferredBinding.Proofs.Property.Enumeration
import DeferredBinding.Proofs.Record.Codec

/-!
# The hand-off of a record over the disk

A record is sound if it has permutations, they are numbered by their places, and each answers for something with oracles
that have as many values as names (`Record.Sound`). What is read from the file that a record was written to is that
record exactly if it is sound; otherwise the reader reports what is wrong first (`Record.FirstFault`). The permutations
of a model are always sound.
-/

namespace DeferredBinding

/-! ## Sound permutations -/

/-- An oracle with as many values as names. -/
def Oracle.IsShaped (o : Oracle) : Prop :=
  o.props.length = o.values.length

instance (o : Oracle) : Decidable o.IsShaped :=
  inferInstanceAs (Decidable (_ = _))

namespace Permutation

/-- A permutation at a place is sound: it has its place as its id, and oracles, each with as many values as names. -/
structure Sound (i : Nat) (p : Permutation) : Prop where
  numbered : p.id = i
  answering : p.oracles ≠ []
  shaped : ∀ o ∈ p.oracles, o.IsShaped

/-- What is wrong first with a permutation at a place: its id, then that it has no oracle, then the first oracle with
another number of values than names. -/
inductive Faulty (i : Nat) (p : Permutation) : RecordFault → Prop
  | wrongId (hid : p.id ≠ i) : Faulty i p (.wrongId i p.id)
  | noOracles (hid : p.id = i) (hnone : p.oracles = []) : Faulty i p (.noOracles i)
  | oracleShape {o : Oracle} (hid : p.id = i) (hfirst : p.oracles.find? (fun o => ¬o.IsShaped) = some o) :
      Faulty i p (.oracleShape i o.props.length o.values.length)

/-- A permutation with a fault is not sound. -/
theorem Faulty.not_sound {i : Nat} {p : Permutation} {f : RecordFault} (h : p.Faulty i f) : ¬p.Sound i := by
  intro hsound
  cases h with
  | wrongId hid => exact hid hsound.numbered
  | noOracles _ hnone => exact hsound.answering hnone
  | oracleShape _ hfirst =>
    have hmisshapen := List.find?_some hfirst
    rw [decide_eq_true_eq] at hmisshapen
    exact hmisshapen (hsound.shaped _ (List.mem_of_find?_eq_some hfirst))

/-- One thing is wrong first with a permutation. -/
theorem Faulty.unique {i : Nat} {p : Permutation} {f g : RecordFault} (h : p.Faulty i f) (h' : p.Faulty i g) : f = g := by
  cases h with
  | wrongId hid =>
    cases h' with
    | wrongId => rfl
    | noOracles hid' => exact absurd hid' hid
    | oracleShape hid' => exact absurd hid' hid
  | noOracles hid hnone =>
    cases h' with
    | wrongId hid' => exact absurd hid hid'
    | noOracles => rfl
    | oracleShape _ hfirst => simp [hnone] at hfirst
  | oracleShape hid hfirst =>
    cases h' with
    | wrongId hid' => exact absurd hid hid'
    | noOracles _ hnone => simp [hnone] at hfirst
    | oracleShape _ hfirst' =>
      obtain rfl := Option.some.inj (hfirst.symm.trans hfirst')
      rfl

end Permutation

namespace Record

/-- A list of permutations is sound: it is not empty, and each of them is sound at its place. -/
structure Sound (ps : List Permutation) : Prop where
  nonempty : ps ≠ []
  each : ∀ (i : Nat) (p : Permutation), ps[i]? = some p → p.Sound i

/-- What is wrong first with a list of permutations, in the order of their places. -/
inductive FirstFault (ps : List Permutation) : RecordFault → Prop
  | noPermutations (hnone : ps = []) : FirstFault ps .noPermutations
  | permutation {i : Nat} {p : Permutation} {f : RecordFault} (hp : ps[i]? = some p)
      (hbefore : ∀ (j : Nat) (q : Permutation), j < i → ps[j]? = some q → q.Sound j) (hf : p.Faulty i f) : FirstFault ps f

/-- Permutations with a fault are not sound. -/
theorem FirstFault.not_sound {ps : List Permutation} {f : RecordFault} (h : FirstFault ps f) : ¬Sound ps := by
  intro hsound
  cases h with
  | noPermutations hnone => exact hsound.nonempty hnone
  | permutation hp _ hf => exact hf.not_sound (hsound.each _ _ hp)

/-- One thing is wrong first with a list of permutations. -/
theorem FirstFault.unique {ps : List Permutation} {f g : RecordFault} (h : FirstFault ps f) (h' : FirstFault ps g) :
    f = g := by
  cases h with
  | noPermutations hnone =>
    cases h' with
    | noPermutations => rfl
    | permutation hp => simp [hnone] at hp
  | @permutation i p _ hp hbefore hf =>
    cases h' with
    | noPermutations hnone => simp [hnone] at hp
    | @permutation j q _ hq hbefore' hg =>
      rcases Nat.lt_trichotomy i j with hij | rfl | hji
      · exact absurd (hbefore' i p hij hp) hf.not_sound
      · obtain rfl := Option.some.inj (hp.symm.trans hq)
        exact hf.unique hg
      · exact absurd (hbefore j q hji hq) hg.not_sound

/-! ## The check of a record -/

/-- The check of oracles stops at the first with another number of values than names. -/
theorem checkOracles_spec (id : Nat) (os : List Oracle) :
    checkOracles id os =
      match os.find? (fun o => ¬o.IsShaped) with
      | none => .ok ()
      | some o => .error (.oracleShape id o.props.length o.values.length) := by
  induction os with
  | nil => rfl
  | cons o os ih =>
    rw [checkOracles]
    split
    · rename_i ho
      have ho : o.IsShaped := ho
      rw [ih, List.find?_cons_of_neg (by simpa using ho)]
    · rename_i ho
      have ho : ¬o.IsShaped := ho
      rw [List.find?_cons_of_pos (by simpa using ho)]

/-- The check of one permutation at its place. -/
def checkPermutation (i : Nat) (p : Permutation) : Except RecordFault Unit :=
  if p.id ≠ i then .error (.wrongId i p.id)
  else if p.oracles.isEmpty then .error (.noOracles i)
  else checkOracles i p.oracles

/-- Permutations are checked one after the other. -/
theorem checkPermutations_cons (i : Nat) (p : Permutation) (ps : List Permutation) :
    checkPermutations i (p :: ps) = checkPermutation i p >>= fun _ => checkPermutations (i + 1) ps := by
  rw [checkPermutations, checkPermutation]
  split
  · rfl
  · split
    · rfl
    · cases checkOracles i p.oracles with
      | error e => rfl
      | ok u => rfl

/-- A permutation is sound, or its check reports what is wrong with it first. -/
theorem checkPermutation_spec (i : Nat) (p : Permutation) :
    checkPermutation i p = .ok () ∧ p.Sound i ∨ ∃ f, checkPermutation i p = .error f ∧ p.Faulty i f := by
  unfold checkPermutation
  by_cases hid : p.id = i
  · rw [if_neg (not_not.2 hid)]
    by_cases hnone : p.oracles = []
    · rw [if_pos (by simp [hnone])]
      exact Or.inr ⟨_, rfl, .noOracles hid hnone⟩
    · rw [if_neg (by simpa using hnone)]
      rw [checkOracles_spec]
      cases hfirst : p.oracles.find? (fun o => ¬o.IsShaped) with
      | none => exact Or.inl ⟨rfl, hid, hnone, by simpa using hfirst⟩
      | some o => exact Or.inr ⟨_, rfl, .oracleShape hid hfirst⟩
  · rw [if_pos hid]
    exact Or.inr ⟨_, rfl, .wrongId hid⟩

/-- The check of the permutations from a place on: they are all sound, or it stops with what is wrong with the first
that is not. -/
theorem checkPermutations_spec (start : Nat) (ps : List Permutation) :
    checkPermutations start ps = .ok () ∧ (∀ (i : Nat) (p : Permutation), ps[i]? = some p → p.Sound (start + i)) ∨
      ∃ (i : Nat) (p : Permutation) (f : RecordFault), checkPermutations start ps = .error f ∧ ps[i]? = some p ∧
        (∀ (j : Nat) (q : Permutation), j < i → ps[j]? = some q → q.Sound (start + j)) ∧ p.Faulty (start + i) f := by
  induction ps generalizing start with
  | nil => exact Or.inl ⟨rfl, by simp⟩
  | cons p ps ih =>
    rw [checkPermutations_cons]
    rcases checkPermutation_spec start p with ⟨hok, hsound⟩ | ⟨f, herr, hf⟩
    · rw [hok]
      have hnext : ∀ k, start + 1 + k = start + (k + 1) := fun k => by omega
      have hplace : ∀ (j : Nat) (q : Permutation), (p :: ps)[j]? = some q →
          (∀ k, j = k + 1 → ps[k]? = some q → q.Sound (start + 1 + k)) → q.Sound (start + j) := by
        intro j q hq hrest
        cases j with
        | zero =>
          obtain rfl : p = q := by simpa using hq
          exact hsound
        | succ k => exact hnext k ▸ hrest k rfl (by simpa using hq)
      rcases ih (start + 1) with ⟨hrest, hall⟩ | ⟨i, q, f, herr, hq, hbefore, hf⟩
      · exact Or.inl ⟨hrest, fun j q hq => hplace j q hq fun k _ => hall k q⟩
      · refine Or.inr ⟨i + 1, q, f, herr, by simpa using hq, fun j r hj hr => ?_, hnext i ▸ hf⟩
        exact hplace j r hr fun k hk => hbefore k r (by omega)
    · rw [herr]
      exact Or.inr ⟨0, p, f, rfl, rfl, fun j q hj => absurd hj (Nat.not_lt_zero j), hf⟩

/-- A record is sound and accepted, or its check reports what is wrong with it first. -/
theorem check_spec (r : Record) :
    r.check formatVersion = .ok () ∧ Sound r.permutations ∨
      ∃ f, r.check formatVersion = .error f ∧ FirstFault r.permutations f := by
  unfold check
  rw [if_neg (by simp)]
  by_cases hnone : r.permutations = []
  · rw [if_pos (by simp [hnone])]
    exact Or.inr ⟨_, rfl, .noPermutations hnone⟩
  · rw [if_neg (by simpa using hnone)]
    rcases checkPermutations_spec 0 r.permutations with ⟨hok, hall⟩ | ⟨i, p, f, herr, hp, hbefore, hf⟩
    · exact Or.inl ⟨hok, hnone, fun i p hp => Nat.zero_add i ▸ hall i p hp⟩
    · refine Or.inr ⟨f, herr, .permutation hp (fun j q hj hq => ?_) (Nat.zero_add i ▸ hf)⟩
      exact Nat.zero_add j ▸ hbefore j q hj hq

/-- A record that bytes give is sound. -/
theorem sound_of_ofBytes {bytes : ByteArray} {r : Record} (h : ofBytes bytes = .ok r) : Sound r.permutations := by
  unfold ofBytes at h
  split at h
  · nomatch h
  · rename_i version r' _
    cases hcheck : r'.check version with
    | error e =>
      rw [hcheck] at h
      nomatch h
    | ok u =>
      rw [hcheck] at h
      obtain rfl := Except.ok.inj h
      obtain rfl : version = formatVersion := by
        by_contra hne
        rw [check, if_pos hne] at hcheck
        nomatch hcheck
      rcases check_spec r' with ⟨-, hsound⟩ | ⟨f, herr, -⟩
      · exact hsound
      · rw [herr] at hcheck
        nomatch hcheck

/-- Properties that all have values have a row. -/
theorem exists_isRow {bs : List Binding} (h : ∀ b ∈ bs, b.values ≠ []) : ∃ row, IsRow bs row := by
  induction bs with
  | nil => exact ⟨[], .nil⟩
  | cons b bs ih =>
    obtain ⟨v, hv⟩ := List.exists_mem_of_ne_nil _ (h b List.mem_cons_self)
    obtain ⟨row, hrow⟩ := ih fun d hd => h d (List.mem_cons_of_mem b hd)
    exact ⟨v :: row, .cons hv hrow⟩

/-- The permutations of a reachable model are sound. -/
theorem sound_permutations {model : Model} (h : model.Reachable) : Sound model.permutations := by
  constructor
  · intro hnil
    obtain ⟨row, hrow⟩ := exists_isRow fun b hb => (h.wellFormed.valid b hb).nonempty
    obtain ⟨p, hp, -⟩ := exists_permutation_of_isRow hrow
    rw [hnil] at hp
    nomatch hp
  · intro i p hp
    have hmem := List.mem_of_getElem? hp
    refine ⟨id_of_getElem? hp, oracles_ne_nil hmem, ?_⟩
    intro o ho
    obtain ⟨row, hrow, rfl⟩ := exists_row_of_mem_oracles hmem ho
    exact (List.length_map ..).trans hrow.length_eq

/-! ## Over the disk -/

/-- A write that is reported as done is done. -/
theorem disk_write_of_ok {path : Path} {bytes : ByteArray} {m m' : Machine}
    (h : perform (do
      match ← (Host.write path bytes : StateM Machine (Except Refusal Unit)) with
      | .error e => throw (.diskFailed path e)
      | .ok _ => pure ()) m = (.ok (), m')) : m.disk.write path bytes = .ok m'.disk := by
  rw [perform_bind, perform_lift] at h
  rcases hrun : (Host.write path bytes : StateM Machine (Except Refusal Unit)).run m with ⟨r, m₁⟩
  rw [hrun] at h
  cases r with
  | error e => cases (Prod.mk.inj h).1
  | ok u =>
    obtain ⟨-, rfl⟩ := Prod.mk.inj h
    exact disk_of_run_change (f := (·.write path bytes)) hrun

/-- A record that is written is on the disk, in bytes. -/
theorem read_of_perform_write {r : Record} {path : Path} {m m' : Machine} (hcwd : m.disk.DirAt m.disk.cwd)
    (h : perform (r.write path) m = (.ok (), m')) : m'.disk.read path = .ok r.toBytes := by
  unfold write at h
  cases hparent : path.parent? with
  | none =>
    rw [hparent] at h
    exact Disk.read_of_write hcwd (disk_write_of_ok h)
  | some parent =>
    rw [hparent] at h
    dsimp only at h
    rw [perform_bind, perform_lift] at h
    obtain ⟨made, m₁, hmade⟩ : ∃ made m₁,
        (Host.makeDirectories parent : StateM Machine (Except Refusal Unit)).run m = (made, m₁) := ⟨_, _, rfl⟩
    have hgrows := grows_root_makeDirectories hmade
    rw [hmade] at h
    cases made with
    | error e => cases (Prod.mk.inj h).1
    | ok u =>
      have hcwd' : m₁.disk.DirAt m₁.disk.cwd := hgrows.cwd ▸ hgrows.all _ hcwd
      exact Disk.read_of_write hcwd' (disk_write_of_ok h)

/-- Reading a record gives what the bytes of its file do. -/
theorem perform_read {path : Path} {m : Machine} {bytes : ByteArray} (h : m.disk.read path = .ok bytes) :
    perform (Record.read path) m = ((ofBytes bytes).mapError (.recordUnreadable path), m) := by
  rw [Record.read, perform_bind, perform_lift, run_read, h]
  dsimp only
  cases ofBytes bytes with
  | error f => rfl
  | ok r => rfl

/-- A record that is read is sound. -/
theorem sound_of_perform_read {path : Path} {m m' : Machine} {r : Record}
    (h : perform (Record.read path) m = (.ok r, m')) : Sound r.permutations := by
  cases hdisk : m.disk.read path with
  | error e =>
    rw [Record.read, perform_bind, perform_lift, run_read, hdisk] at h
    cases e <;> cases (Prod.mk.inj h).1
  | ok bytes =>
    rw [perform_read hdisk] at h
    have hbytes : ofBytes bytes = .ok r := by
      cases hb : ofBytes bytes with
      | error f =>
        rw [hb] at h
        cases (Prod.mk.inj h).1
      | ok r' =>
        rw [hb] at h
        cases (Prod.mk.inj h).1
        rfl
    exact sound_of_ofBytes hbytes

/-- What is read after a record is written: that record exactly if it is sound, and otherwise the report of what is wrong
first with its permutations. The permutations of a model are always sound. -/
theorem read_after_write {r : Record} {path : Path} {m m' : Machine} (hids : r.IdsBounded)
    (hcwd : m.disk.DirAt m.disk.cwd) (hwrite : perform (r.write path) m = (.ok (), m')) :
    (perform (Record.read path) m' = (.ok r, m') ↔ Sound r.permutations) ∧
      (∀ f, perform (Record.read path) m' = (.error (.recordUnreadable path f), m') ↔ FirstFault r.permutations f) ∧
      (¬Sound r.permutations → ∃ f, FirstFault r.permutations f) ∧
      ∀ model : Model, model.Reachable → Sound model.permutations := by
  have hread := perform_read (read_of_perform_write hcwd hwrite)
  rw [ofBytes_toBytes hids] at hread
  rcases check_spec r with ⟨hok, hsound⟩ | ⟨f, herr, hfault⟩
  · rw [hok] at hread
    refine ⟨⟨fun _ => hsound, fun _ => hread⟩, fun f => ⟨fun hf => ?_, fun hf => absurd hsound hf.not_sound⟩,
      fun hn => absurd hsound hn, fun model => sound_permutations⟩
    cases (Prod.mk.inj (hread.symm.trans hf)).1
  · rw [herr] at hread
    refine ⟨⟨fun hr => ?_, fun hs => absurd hs hfault.not_sound⟩, fun g => ⟨fun hg => ?_, fun hg => ?_⟩,
      fun _ => ⟨f, hfault⟩, fun model => sound_permutations⟩
    · cases (Prod.mk.inj (hread.symm.trans hr)).1
    · cases (Prod.mk.inj (hread.symm.trans hg)).1
      exact hfault
    · obtain rfl := hfault.unique hg
      exact hread

/-- A record with characters that are escaped, bytes that are no text and the greatest id, whose second permutation has a
given id. -/
def shelf (id : Nat) : Record where
  moduleName := "shelf \"\\\t\x01 é 😀"
  style := .pretty
  body := "read();\n"
  permutations := [⟨0, [⟨["locale"], ["en"]⟩, ⟨["locale"], ["fr"]⟩]⟩, ⟨id, [⟨["locale"], ["de"]⟩]⟩]
  pins := .ofList [("theme", "dark")]
  generated := .ofList [
    .emitted ⟨"cover.bin", ⟨#[0, 255, 16, 1]⟩, .privately, "binder"⟩,
    .compilation ⟨"S1", "code();", [idBound - 1], [.ofList [("locale", "en")]]⟩]

/-- A machine with an empty directory to work in. -/
def desk : Machine :=
  ⟨⟨.directory [("desk", .empty)], ["desk"]⟩, []⟩

theorem shelf_idsBounded {id : Nat} (h : id < idBound) : (shelf id).IdsBounded := by
  constructor
  · have hzero : 0 < idBound := by decide
    simp [shelf, h, hzero]
  · intro a ha
    have hentries : (shelf id).generated.entries = [
        .emitted ⟨"cover.bin", ⟨#[0, 255, 16, 1]⟩, .privately, "binder"⟩,
        .compilation ⟨"S1", "code();", [idBound - 1], [.ofList [("locale", "en")]]⟩] := rfl
    rw [hentries] at ha
    rcases List.mem_pair.1 ha with rfl | rfl
    · trivial
    · simp [Artifact.IdsBounded, idBound]

/-- A record is written into a directory that is made for it. -/
theorem exists_write_shelf (id : Nat) : ∃ m, perform ((shelf id).write ⟨"out/./shelf.json"⟩) desk = (.ok (), m) :=
  ⟨_, rfl⟩

/-- A sound record is read back, and one with a wrong id is refused for that. -/
theorem shelf_read_after_write :
    (∃ m, perform ((shelf 1).write ⟨"out/./shelf.json"⟩) desk = (.ok (), m) ∧
        perform (Record.read ⟨"out/./shelf.json"⟩) m = (.ok (shelf 1), m)) ∧
      ∃ m, perform ((shelf 7).write ⟨"out/./shelf.json"⟩) desk = (.ok (), m) ∧
        perform (Record.read ⟨"out/./shelf.json"⟩) m = (.error (.recordUnreadable ⟨"out/./shelf.json"⟩ (.wrongId 1 7)), m) := by
  have hcwd : desk.disk.DirAt desk.disk.cwd := ⟨[], rfl⟩
  have hfirst : (⟨0, [⟨["locale"], ["en"]⟩, ⟨["locale"], ["fr"]⟩]⟩ : Permutation).Sound 0 := ⟨rfl, nofun, by decide⟩
  have hsound : Sound (shelf 1).permutations := by
    refine ⟨nofun, fun i p hp => ?_⟩
    match i with
    | 0 =>
      cases hp
      exact hfirst
    | 1 =>
      cases hp
      exact ⟨rfl, nofun, by decide⟩
    | _ + 2 => nomatch hp
  have hfault : FirstFault (shelf 7).permutations (.wrongId 1 7) := by
    refine .permutation (i := 1) rfl (fun j q hj hq => ?_) (.wrongId nofun)
    obtain rfl : j = 0 := by omega
    cases hq
    exact hfirst
  obtain ⟨m₁, h₁⟩ := exists_write_shelf 1
  obtain ⟨m₇, h₇⟩ := exists_write_shelf 7
  exact ⟨⟨m₁, h₁, (read_after_write (shelf_idsBounded (by decide)) hcwd h₁).1.2 hsound⟩, m₇, h₇,
    ((read_after_write (shelf_idsBounded (by decide)) hcwd h₇).2.1 _).2 hfault⟩

end Record

end DeferredBinding
